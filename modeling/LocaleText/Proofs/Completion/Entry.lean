import LocaleText.Proofs.Completion.Operation

/-!
# Completing entries

What completes an entity or a macro that the source ends within, and with it the source.

* `Completes.entity`, `.macroDef` and `.entry` follow the readers of the grammar
* `Completes.items` is about everything up to the end of a source
-/

namespace LocaleText

open Filter (atTop Tendsto)

namespace Reader

theorem CompletesInner.mono {b b' : Nat} {inner : Nesting → Reader Expr}
    {inner' : Nat → Nesting → Reader Expr} (hle : b ≤ b') (h : CompletesInner b' inner inner') :
    CompletesInner b inner inner' :=
  ⟨h.toKeepsInner.mono hle, fun n i hn hi => h.completes n i hn (by omega), h.fresh⟩

namespace Fresh

variable {ι γ : Type} {K : List Char → Prop}

/-- A reader that only looks has no need of a text. -/
theorem still {v : ι → Nat → Reader γ} (hv : ∀ b c l, ∃ r, v b c l = .ok r l) : Fresh 0 K K v := by
  refine ⟨[], Nat.le_refl 0, fun rest hrest => ⟨hrest, .of_forall fun c b o => ?_⟩⟩
  obtain ⟨r, hr⟩ := hv b c ⟨o, rest⟩
  exact .of_ok hr

/-- Nothing has to be added for blanks. -/
theorem gap (hK : ∀ v, K v → Solid v) : Fresh 0 K K fun (_ : ι) _ => Reader.gap :=
  ⟨[], Nat.le_refl 0, fun _ hrest => ⟨hrest, .of_forall fun _ _ _ => .gap (hK _ hrest).1⟩⟩

end Fresh

namespace Completes

variable {i l : Input} {c : Char} {b : Nat} {n : Nesting} {r : Nat → Nat} {a : Nat}

/-- Where `c` comes next, the fault for another character does not matter. -/
theorem expect_of_head {kind : FaultKind} {F : List Char → Prop} (hF : ∀ rest, F rest → Detached rest)
    (hc : i.rest.head? = some c) :
    Completes a F (Reader.expect c kind) (fun _ => Reader.expect c kind) i :=
  .eat_bind (fun hnil => by simp [hnil] at hc) (fun _ _ => .pure hF) fun _ hne => absurd hc hne

/-! ### Attributes -/

theorem solid_of_curly (v : List Char) (h : Begins '\x7b' v) : Solid v :=
  h.solid (by decide) (by decide)

theorem solid_of_angle (v : List Char) (h : Begins '>' v) : Solid v := h.solid (by decide) (by decide)

/-- An empty object is a value. -/
theorem fresh_entryValue {ι : Type} (hn : n.limit = none) :
    Fresh 2 (Begins '\x7b') Detached fun (_ : ι) c => Reader.entryValue (c + 1) n := by
  have hvalue : Fresh 2 (Begins '\x7b') Detached fun (_ : Unit) c =>
      Reader.value (expression (c + 1)) (c + 1) n := fresh_value hn
  exact hvalue.of_unit

theorem entryValue (hn : n.limit = none) (hi : i.rest.length < b + 1) :
    Completes 3 Detached (entryValue (b + 1) n) (fun c => Reader.entryValue (c + 1) n) i :=
  value ((completesInner_expression_succ (b + 1)).mono (Nat.le_succ b)) hn hi

/-- Nothing but the end of the entry has to follow. -/
theorem fresh_behindAttribute {ι : Type} {d : Nat → Nat} (entries : ι → Attributes) :
    Fresh 0 (Begins '>') (Begins '>') fun b c => behindAttribute (r c) (d c) n (entries b) := by
  refine ⟨[], Nat.le_refl 0, fun rest hrest => ⟨hrest, .of_forall fun c b o => .peek?_bind ?_⟩⟩
  rw [show (⟨o, [] ++ rest⟩ : Input).rest.head? = some '>' from hrest]
  exact .pure

theorem fresh_behindBlank {ι : Type} {d : Nat → Nat} (entries : ι → Attributes) :
    Fresh 0 Detached (Begins '>') fun b c => Reader.blanks >>= fun _ =>
      behindAttribute (r c) (d c) n (entries b) :=
  .mono (fun _ h => (solid_of_angle _ h).2) (.blanks_bind solid_of_angle (fresh_behindAttribute _))

/-- An attribute has a name of one letter, a colon and an empty object. -/
theorem fresh_attributeRounds {ι : Type} (hn : n.limit = none) (hr : Tendsto r atTop atTop)
    (entries : ι → Attributes) : Fresh 4 Solid (Begins '>') fun b c =>
      Reader.repeatUpTo (r c) (entries b) (attributeRound (c + 1) n) := by
  have hround : Fresh 4 Solid (Begins '>') fun b c =>
      Reader.repeatUpTo (r c - 1 + 1) (entries b) (attributeRound (c + 1) n) := by
    simp only [repeatUpTo_attributeRound]
    have hkeyed := fresh_keyed ((fresh_entryValue hn).mono solid_of_curly)
    exact Fresh.bind (k := 0) hkeyed.of_unit (fresh_behindBlank _)
  refine hround.congr ?_
  filter_upwards [hr.eventually_ge_atTop 1] with c hc
  exact fun b => by rw [Nat.sub_add_cancel hc]

/-- A key has been taken before the next attribute begins. -/
theorem attributeRounds (hn : n.limit = none) {rounds : Nat} {entries entries' : Attributes}
    (hr : Tendsto r atTop atTop) (hi : i.rest.length < b + 1) (hrounds : i.rest.length < rounds) :
    Completes 4 (Begins '>') (Reader.repeatUpTo rounds entries (attributeRound (b + 1) n))
      (fun c => Reader.repeatUpTo (r c) entries' (attributeRound (c + 1) n)) i := by
  refine repeatUpTo (fun rounds r entries entries' i hr hi ih => ?_) hr hi hrounds
  simp only [repeatUpTo_attributeRound]
  have hvalue : ∀ m : Input, m.rest.length < i.rest.length → Completes 4 Detached
      (Reader.entryValue (b + 1) n) (fun c => Reader.entryValue (c + 1) n) m :=
    fun m hm => (entryValue hn (by omega)).le (by decide)
  refine .bind (.keyed_entryValue hi) (keyed hvalue ((fresh_entryValue hn).mono solid_of_curly) (by decide))
    (fresh_behindBlank _) (Nat.le_refl 4) fun member l hmember _ _ => ?_
  have hlt := keyed_shortens (fun j _ _ hj => (Keeps.entryValue (by omega)).length_le) hmember
  refine blanks_bind (.mono solid_of_angle (fresh_behindAttribute _)) (by decide) fun m hm hne => ?_
  refine .peek?_bind (fun hnil => absurd hnil hne) fun c hc => ?_
  by_cases hend : c = '>'
  · subst hend
    exact .pure fun _ h => (solid_of_angle _ h).2
  by_cases hcomma : c = ','
  · subst hcomma
    refine .skip_bind hc fun k hk => ?_
    have hlt' := hk.length_lt (by simp)
    refine blanks_bind (fresh_attributeRounds hn hr _) (by decide) fun k' hk' _ => ?_
    exact (ih _ _ k' (by omega)).le (by decide)
  · simp only [Option.some.injEq, hend, imp_self, hcomma]
    exact .unexpected hne (by decide)

/-- An attribute that has been begun is completed; the entry is closed behind it. -/
theorem attributes (hn : n.limit = none) (hi : i.rest.length < b + 1) :
    Completes 4 (Begins '>') (attributes (b + 1) n) (fun c => Reader.attributes (c + 1) n) i :=
  attributeRounds hn (Filter.tendsto_add_atTop_nat 1) hi hi

/-! ### The end of an entry -/

/-- An entry needs no attributes. -/
theorem fresh_behindBlanks {ι : Type} : Fresh 1 (Begins '>') Detached fun (_ : ι) c =>
    peek? >>= fun c? =>
      (if c? = some '>' then Pure.pure none else some <$> Reader.attributes (c + 1) n) >>= fun attrs =>
        Reader.expect '>' .endOfInput >>= fun _ => Pure.pure attrs := by
  refine ⟨['>'], by decide, fun rest _ => ⟨rfl, .of_forall fun c _ o => .peek?_bind ?_⟩⟩
  rw [show (⟨o, ['>'] ++ rest⟩ : Input).rest.head? = some '>' from rfl, if_pos rfl, pure_bind]
  exact EndsBefore.expect.bind fun _ _ => .pure

theorem fresh_entryEnd {ι : Type} :
    Fresh 1 (Begins '>') Detached fun (_ : ι) c => Reader.entryEnd (c + 1) n := by
  simp only [entryEnd_eq]
  exact .blanks_bind solid_of_angle fresh_behindBlanks

/-- By cases on whether there are attributes. They end before the closer of the entry. -/
theorem entryEnd (hn : n.limit = none) (hi : i.rest.length < b + 1) :
    Completes 5 Detached (entryEnd (b + 1) n) (fun c => Reader.entryEnd (c + 1) n) i := by
  simp only [entryEnd_eq]
  refine blanks_bind (.mono solid_of_angle fresh_behindBlanks) (by decide) fun l hl hne => ?_
  have hclose : ∀ {m : Input} {attrs attrs' : Option Attributes}, m.rest.head? = some '>' →
      Completes 5 Detached (Reader.expect '>' .endOfInput >>= fun _ => Pure.pure attrs)
        (fun _ => Reader.expect '>' .endOfInput >>= fun _ => Pure.pure attrs') m :=
    fun hm => (expect_of_head (fun _ h => h) hm).bind_still (fun _ _ => ⟨_, rfl⟩) fun _ _ _ => ⟨_, rfl⟩
  refine .peek?_bind (fun hnil => absurd hnil hne) fun c hc => ?_
  by_cases hend : c = '>'
  · subst hend
    simp only [if_true, pure_bind]
    exact hclose hc
  · simp only [Option.some.injEq, hend, if_false]
    refine .bind (q := 1) (.attributes (by omega)) (attributes hn (by omega)).map ?_ (by decide)
      fun attrs m hattrs _ _ => ?_
    · exact ⟨['>'], by decide, fun rest _ => ⟨rfl, .of_forall fun _ _ _ => EndsBefore.expect.bind fun _ _ => .pure⟩⟩
    · obtain ⟨_, hattrs, _⟩ := map_eq_ok.mp hattrs
      obtain ⟨_, _, _, hnext, _⟩ := attributes_of_rounds (Rounds.of_repeatUpTo hattrs) (by omega)
      exact hclose hnext

/-! ### Entities -/

section Entities

variable {ι γ : Type}

/-- Behind the end of an entry, the reader only looks back. -/
theorem fresh_closing {v : ι → Option Attributes → Reader γ}
    (hv : ∀ b attrs l, ∃ r, v b attrs l = .ok r l) :
    Fresh 1 (Begins '>') Detached fun b c => Reader.entryEnd (c + 1) n >>= v b :=
  Fresh.bind (k := 0) fresh_entryEnd (.still fun _ _ _ => hv _ _ _)

/-- Behind a value, nothing but the end of the entity has to follow. -/
theorem fresh_behindValue {v : ι → Gap → Option Attributes → Reader γ}
    (hv : ∀ b behind attrs l, ∃ r, v b behind attrs l = .ok r l) :
    Fresh 1 Detached Detached fun b c => Reader.gap >>= fun behind =>
      Reader.entryEnd (c + 1) n >>= v b behind :=
  .mono (fun _ h => (solid_of_angle _ h).2)
    (Fresh.bind (k := 1) (.gap solid_of_angle) (fresh_closing fun _ _ _ => hv _ _ _ _))

theorem fresh_behindGap (hn : n.limit = none) {v : ι → Value → Gap → Option Attributes → Reader γ}
    (hv : ∀ b value behind attrs l, ∃ r, v b value behind attrs l = .ok r l) :
    Fresh 3 (Begins '\x7b') Detached fun b c => Reader.entryValue (c + 1) n >>= fun value =>
      Reader.gap >>= fun behind => Reader.entryEnd (c + 1) n >>= v b value behind :=
  Fresh.bind (k := 1) (fresh_entryValue hn) (fresh_behindValue fun _ _ _ _ => hv _ _ _ _ _)

variable {start start' : Nat} {id id' : Ident} {index index' : Option (List Expr)}

/-- An entity goes on with an empty object and is closed. -/
theorem fresh_entity (hn : n.limit = none) (id : ι → Ident) (index : ι → Option (List Expr)) :
    Fresh 3 (Begins '\x7b') Detached fun b c =>
      Reader.entity (c + 1) n start (id b) (index b) :=
  Fresh.bind (k := 3) (.gap solid_of_curly) (fresh_behindGap hn fun _ _ _ _ _ => ⟨_, rfl⟩)

/-- By cases on where the source ends: within a gap, the value, or the end of the entity. -/
theorem entity (hn : n.limit = none) (hi : i.rest.length < b + 1) :
    Completes 5 Detached (entity (b + 1) n start id index)
      (fun c => Reader.entity (c + 1) n start' id' index') i := by
  refine .bind (q := 3) (.const fun _ => .gap) (gap (m := 0)) ?_ (by decide) fun before l _ hl _ => ?_
  · exact .mono solid_of_curly (fresh_behindGap hn fun _ _ _ _ _ => ⟨_, rfl⟩)
  refine .bind (q := 1) (.entryValue (by omega)) (entryValue hn (by omega)) ?_ (by decide)
    fun value m _ hm _ => ?_
  · exact fresh_behindValue fun _ _ _ _ => ⟨_, rfl⟩
  refine .bind (q := 1) (.const fun _ => .gap) (gap (m := 0)) ?_ (by decide) fun behind k _ hk _ => ?_
  · exact .mono solid_of_angle (fresh_closing fun _ _ _ => ⟨_, rfl⟩)
  · exact (entryEnd hn (by omega)).bind_still (fun _ _ => ⟨_, rfl⟩) fun _ _ _ => ⟨_, rfl⟩

end Entities

/-! ### Macros -/

theorem closed_of_round (v : List Char) (h : Begins ')' v) : Closed v := h.closed (by decide)

theorem fresh_parameterRounds {ι : Type} {F : List Char → Prop} (hr : Tendsto r atTop atTop)
    (params : ι → Array Ident) : Fresh 1 (Begins ')') F fun b c =>
      Reader.repeatUpTo (r c) (params b) parameterRound :=
  .repeatUpTo [')'] hr (fun _ _ => rfl) fun _ params o _ _ =>
    ⟨params.toList, o + byteLength [')'], rfl⟩

/-- No parameter has to follow another one. -/
theorem fresh_behindParameter {ι : Type} {F : List Char → Prop} (hr : Tendsto r atTop atTop)
    (params : ι → Array Ident) : Fresh 1 (Begins ')') F fun b c =>
      behindParameter (r c) (params b) := by
  obtain ⟨text, hsize, htext⟩ := fresh_parameterRounds (F := F) hr params
  refine ⟨text, hsize, fun rest hrest => ⟨(htext rest hrest).1, ?_⟩⟩
  filter_upwards [(htext rest hrest).2] with c hc
  intro b o
  refine .peek?_bind ?_
  rw [show (⟨o, text ++ rest⟩ : Input).rest.head? = some ')' from (htext rest hrest).1]
  exact hc b o

theorem parameterRounds {rounds : Nat} {params params' : Array Ident}
    (hr : Tendsto r atTop atTop) (hrounds : i.rest.length < rounds) :
    Completes 3 Detached (Reader.repeatUpTo rounds params parameterRound)
      (fun c => Reader.repeatUpTo (r c) params' parameterRound) i := by
  refine repeatUpTo (fun rounds r params params' i hr _ ih => ?_) hr (Nat.lt_succ_self _) hrounds
  have hr' : Tendsto (fun c => r c + 1) atTop atTop := (Filter.tendsto_add_atTop_nat 1).comp hr
  have hnone : i.rest = [] → Completable 3 Detached (fun c =>
      Reader.repeatUpTo (r c + 1) params' parameterRound) i :=
    fun hnil => .of_fresh hnil (fun _ h => (closed_of_round _ h).detached) (by decide)
      (fresh_parameterRounds hr' fun _ => params')
  simp only [repeatUpTo_parameterRound] at hnone ⊢
  refine .eat_bind hnone (fun _ _ => .pure fun _ h => h) fun _ _ => ?_
  have hbehind : ∀ {ι : Type} (params : ι → Array Ident), Fresh 1 AfterToken Detached fun b c =>
      Reader.blanks >>= fun _ => behindParameter (r c) (params b) := fun params =>
    .mono (fun _ h => (closed_of_round _ h).afterToken)
      (.blanks_bind (fun _ h => (closed_of_round _ h).solid) (fresh_behindParameter hr params))
  refine .bind (K := Solid) (.const fun _ => .expect (by decide))
    (expect (m := 0) (fun _ h => h.2) (by decide) (by decide) rfl)
    (fresh_ident.of_unit.bind (hbehind _)) (by decide) fun _ l hsigil _ _ => ?_
  have hlt := (expect_eq_ok.mp hsigil).length_lt (by simp)
  refine .bind (.const fun _ => .ident) ident (hbehind _) (by decide) fun param m _ hm _ => ?_
  refine blanks_bind (q := 1) ?_ (by decide) fun k hk hne => ?_
  · exact .mono (fun _ h => (closed_of_round _ h).solid) (fresh_behindParameter hr _)
  refine .peek?_bind (fun hnil => absurd hnil hne) fun c hc => ?_
  by_cases hcomma : c = ','
  · subst hcomma
    refine .skip_bind hc fun k₁ hk₁ => ?_
    have hlt' := hk₁.length_lt (by simp)
    refine blanks_bind (q := 1) ?_ (by decide) fun k₂ hk₂ _ => (ih _ _ k₂ (by omega)).le (by decide)
    exact .mono (fun _ h => (closed_of_round _ h).solid) (fresh_parameterRounds hr _)
  by_cases hround : c = ')'
  · subst hround
    exact ih _ _ k (by omega)
  · simp only [Option.some.injEq, hcomma, imp_self, hround]
    exact .unexpected hne (by decide)

/-- The list of parameters goes on with a parameter or its closer. -/
theorem parameters (hi : i.rest.length < b + 1) (hc : i.rest.head? = some '(') :
    Completes 1 Detached (parameters (b + 1)) (fun c => Reader.parameters (c + 1)) i := by
  have hr := Filter.tendsto_add_atTop_nat 1
  refine .skip_bind hc fun l hl => ?_
  have hlt := hl.length_lt (by simp)
  refine blanks_bind (q := 1) ?_ (by decide) fun m hm _ => parameterRounds hr (by omega)
  exact .mono (fun _ h => (closed_of_round _ h).solid) (fresh_parameterRounds hr _)

section Macros

variable {ι : Type} {start start' : Nat} {id id' : Ident}

/-- A body of one digit. -/
theorem fresh_body (hn : n.limit = none) : Fresh 2 Solid Detached fun (_ : ι) c =>
    Reader.enclosed (expression (c + 1)) n '\x7d' := by
  have hfresh := (completesInner_expression_succ 0).fresh n hn
  refine .of_unit (.blanks_bind (fun _ h => h) ?_)
  exact Fresh.bind (k := 1) hfresh (fresh_closer (by decide) Prod.snd)

theorem fresh_behindOpener (hn : n.limit = none) {γ : Type}
    {v : ι → Expr → Option Attributes → Reader γ}
    (hv : ∀ b body attrs l, ∃ r, v b body attrs l = .ok r l) :
    Fresh 3 Solid Detached fun b c => Reader.enclosed (expression (c + 1)) n '\x7d' >>= fun body =>
      Reader.entryEnd (c + 1) n >>= v b body :=
  Fresh.bind (k := 1) (fresh_body hn) (.mono (fun _ h => (solid_of_angle _ h).2)
    (fresh_closing fun _ _ _ => hv _ _ _ _))

theorem fresh_behindParameters (hn : n.limit = none) {γ : Type}
    {v : ι → Expr → Option Attributes → Reader γ}
    (hv : ∀ b body attrs l, ∃ r, v b body attrs l = .ok r l) :
    Fresh 4 (Begins '\x7b') Detached fun b c => Reader.expect '\x7b' .malformedExpression >>= fun _ =>
      Reader.enclosed (expression (c + 1)) n '\x7d' >>= fun body =>
        Reader.entryEnd (c + 1) n >>= v b body :=
  .expect_bind rfl (fresh_behindOpener hn hv)

/-- A macro goes on with its parameters, a body of one digit, or its end. -/
theorem macroDef (hn : n.limit = none) (hi : i.rest.length < b + 1) (hc : i.rest.head? = some '(') :
    Completes 6 Detached (macroDef (b + 1) n start id)
      (fun c => Reader.macroDef (c + 1) n start' id') i := by
  have hr := Filter.tendsto_add_atTop_nat 1
  refine .bind (q := 4) (.parameters hi hc) (parameters hi hc) ?_ (by decide)
    fun params l _ hl _ => ?_
  · exact .mono (fun _ h => (solid_of_curly _ h).2) (.blanks_bind solid_of_curly
      (fresh_behindParameters hn fun _ _ _ _ => ⟨_, rfl⟩))
  refine blanks_bind (q := 4) ?_ (by decide) fun m hm _ => ?_
  · exact .mono solid_of_curly (fresh_behindParameters hn fun _ _ _ _ => ⟨_, rfl⟩)
  refine .bind (K := Solid) (.const fun _ => .expect (by decide))
    (expect (m := 0) (fun _ h => h.2) (by decide) (by decide) rfl)
    (fresh_behindOpener hn fun _ _ _ _ => ⟨_, rfl⟩) (by decide) fun _ k _ hk _ => ?_
  refine .bind (q := 1) (.body (by omega))
    (enclosed (completesInner_expression_succ (b + 1)) hn (by decide) (by omega)) ?_ (by decide)
    fun body k' _ hk' _ => ?_
  · exact .mono (fun _ h => (solid_of_angle _ h).2) (fresh_closing fun _ _ _ => ⟨_, rfl⟩)
  · exact ((entryEnd hn (by omega)).le (by decide)).bind_still (fun _ _ => ⟨_, rfl⟩)
      fun _ _ _ => ⟨_, rfl⟩

end Macros

/-! ### Entries -/

section Entries

variable {ι : Type} {start start' : Nat} {id id' : Ident}

theorem fresh_behindIndex (hn : n.limit = none) (id : ι → Ident) (index : ι → Option (List Expr)) :
    Fresh 3 (Begins '\x7b') Detached fun b c =>
      Entry.entity <$> Reader.entity (c + 1) n start (id b) (index b) := by
  simp only [map_eq_pure_bind]
  exact Fresh.bind (k := 0) (fresh_entity hn id index) .pure

/-- An entity needs no index, and an empty object is a value for it. -/
theorem fresh_behindName (hn : n.limit = none) (id : ι → Ident) :
    Fresh 3 (Begins '\x7b') Detached fun b c => behindName (c + 1) n start (id b) := by
  obtain ⟨text, hsize, htext⟩ := fresh_behindIndex hn id fun _ => none
  refine ⟨text, hsize, fun rest hrest => ⟨(htext rest hrest).1, ?_⟩⟩
  filter_upwards [(htext rest hrest).2] with c hc
  intro b o
  refine .peek?_bind ?_
  rw [show (⟨o, text ++ rest⟩ : Input).rest.head? = some '\x7b' from (htext rest hrest).1]
  exact hc b o

/-- By cases on what comes behind the name. -/
theorem completes_behindName (hn : n.limit = none) (hi : i.rest.length < b + 1) (hne : i.rest ≠ []) :
    Completes 6 Detached (behindName (b + 1) n start id)
      (fun c => behindName (c + 1) n start' id') i := by
  have hplain : Completes 6 Detached (Reader.entity (b + 1) n start id none)
      (fun c => Reader.entity (c + 1) n start' id' none) i := (entity hn hi).le (Nat.le_succ 5)
  refine .peek?_bind (fun hnil => absurd hnil hne) fun c hc => ?_
  by_cases hround : c = '('
  · subst hround
    exact (macroDef hn hi hc).map
  by_cases hsquare : c = '['
  · subst hsquare
    refine .bind (q := 3) (.index hi hc) (expressions ((completesInner_expression_succ (b + 1)).mono (Nat.le_succ b))
      hn rfl hi hc) ?_ (by decide) fun index l _ hl _ => ((entity hn (by omega)).le (by decide)).map
    exact .mono (fun _ h => (solid_of_curly _ h).2) (fresh_behindIndex hn (fun _ => id') some)
  · simpa [hround, hsquare] using hplain.map

end Entries

/-- An entry that has been begun. -/
theorem entry (hn : n.limit = none) (hi : i.rest.length < b + 1) (hne : i.rest ≠ []) :
    Completes 4 Detached (entry (b + 1) n) (fun c => Reader.entry (c + 1) n) i := by
  by_cases hslash : i.rest.head? = some '/'
  · obtain ⟨rest, hrest⟩ := List.head?_eq_some_iff.mp hslash
    have herror : Reader.entry (b + 1) n i = _ := Carries.entry_of_slash hrest
    split at herror
    · exact of_error herror (show FaultKind.unsupportedConstruct ∉ _ by decide)
    · exact of_error herror (show FaultKind.unexpectedEntryStart ∉ _ by decide)
  refine .offset_bind (.looksAt_bind (fun more => ?_) ?_)
  · have hhead := Input.head?_append hne more
    rw [isPrefixOf_of_head?_ne hslash, isPrefixOf_of_head?_ne (hhead ▸ hslash)]
  rw [isPrefixOf_of_head?_ne hslash]
  refine .eat_bind (fun hnil => absurd hnil hne) (fun l hl => ?_) fun _ _ => .unexpected hne (by decide)
  have hlt := hl.length_lt (by simp)
  refine .bind (.const fun _ => .ident) ident (.mono (fun _ h => ?_)
    (fresh_behindName hn fun id => id)) (by decide) fun id m _ hm hne => ?_
  · have hc : ∀ ending : Ending, ending.continues '\x7b' = false :=
      Ending.continues_eq_false (by decide) (by decide) (by decide) (by decide)
    exact h.afterToken hc (by decide)
  · exact completes_behindName hn (by omega) hne

/-! ### Bodies -/

theorem solid_of_nil (v : List Char) (h : v = []) : Solid v := by
  subst h
  exact ⟨nextNot_nil _, nextNot_nil _⟩

/-- Nothing has to follow an entry. -/
theorem fresh_itemRounds {ι : Type} (hr : Tendsto r atTop atTop) (body : ι → Array Item) :
    Fresh 0 (· = []) (· = []) fun b c =>
      Reader.repeatUpTo (r c) (body b) (itemRound (c + 1) n) := by
  refine .repeatUpTo [] hr (fun _ h => h) fun c body o rest hrest => ?_
  subst hrest
  exact ⟨_, _, rfl⟩

theorem itemRounds (hn : n.limit = none) {rounds : Nat} {body body' : Array Item}
    (hr : Tendsto r atTop atTop) (hi : i.rest.length < b + 1) (hrounds : i.rest.length < rounds) :
    Completes 4 (· = []) (Reader.repeatUpTo rounds body (itemRound (b + 1) n))
      (fun c => Reader.repeatUpTo (r c) body' (itemRound (c + 1) n)) i := by
  refine repeatUpTo (fun rounds r body body' i hr hi ih => ?_) hr hi hrounds
  simp only [repeatUpTo_itemRound]
  refine .bind (q := 0) (.const fun _ => .gap) (gap (m := 0)) ?_ (by decide) fun blank l _ hl hne => ?_
  · refine .mono solid_of_nil ⟨[], Nat.le_refl 0, fun rest hrest => ⟨hrest, .of_forall fun c blank o => ?_⟩⟩
    rw [hrest]
    exact .peek?_bind .pure
  refine .peek?_bind (fun hnil => absurd hnil hne) fun c hc => ?_
  simp only [Option.isNone_some, Bool.false_eq_true, if_false]
  refine .bind (q := 0) (.entry (by omega)) (entry hn (by omega) hne) ?_ (by decide) fun e m hentry _ _ => ?_
  · exact .mono (fun _ h => (solid_of_nil _ h).2) (fresh_itemRounds hr _)
  · have hlt := entry_shortens (by omega) hentry
    exact ih _ _ m (by omega)

/-- Only the last entry of a source may have to be completed. -/
theorem items (hn : n.limit = none) (hi : i.rest.length < b + 1) :
    Completes 4 (· = []) (items (b + 1) n) (fun c => Reader.items (c + 1) n) i :=
  itemRounds hn (Filter.tendsto_add_atTop_nat 1) hi hi

end Completes

end Reader

end LocaleText
