import LocaleText.Proofs.Concatenation
import LocaleText.Proofs.Node.Basic

/-!
# Trees that are read are well formed

What is spelled is well formed, so that every tree that is read can be written again.

* `SpellsOperation.le_rank`: the levels of operators in the text are those in the tree
* `SpellsOperation.wellFormed` and its companions follow the derivation, under any nesting
* `SpellsEntry.wellFormed` is about the parts of an entry, and `SpellsBody.wellFormed` puts them
  together for all entries
* `Member.default?_mem_keys` and `Value.defaultMember?_isSome`: the default member of an object is
  found exactly when it has one
* `Resource.wellFormed_of_read` is the result
-/

namespace LocaleText

/-! ### Levels -/

section Levels

variable {n : Nesting} {o : Nat} {text : List Char} {e : Expr} {ending : Ending}

/-- The tree of an operand has no operator at its root. -/
theorem SpellsOperand.rank (h : SpellsOperand n o text e ending) : e.rank = 8 := by
  cases h with
  | _ => rfl

/-- At a level stand the trees that bind at least that tightly. -/
theorem SpellsOperation.le_rank :
    ∀ {rank n o text e ending}, SpellsOperation rank n o text e ending → rank ≤ e.rank
  | _, _, _, _, _, _, .operand h => Nat.le_of_eq h.rank.symm
  | _, _, _, _, _, _, .looser h => Nat.le_of_succ_le h.le_rank
  | _, _, _, _, _, _, .unary .. => Nat.le_refl 7
  | _, _, _, _, _, _, .binary hr .. => Nat.le_of_eq hr.symm
  | _, _, _, _, _, _, .choice .. => Nat.zero_le _

end Levels

/-! ### Names and keys -/

section Names

variable {text : List Char} {name : String} {ending : Ending}

theorem NameText.isName (h : NameText text name ending) : IsName name.toList := by
  cases h with
  | bare hn => rwa [String.toList_ofList]
  | opened hn _ => rwa [String.toList_ofList]
  | quoted hn _ => rwa [String.toList_ofList]

theorem KeyText.isName (h : KeyText text name) : IsName name.toList := by
  obtain ⟨hname, _, _⟩ := h
  exact hname.isName

/-- Each member by itself. -/
theorem wellFormedMembers_iff {members : List (String × Expr)} :
    WellFormedMembers members ↔ ∀ m ∈ members, IsName m.1.toList ∧ m.2.WellFormed := by
  induction members with
  | nil => simp [WellFormedMembers]
  | cons m members ih =>
    rw [List.forall_mem_cons, ← ih]
    rfl

/-- The default key of the members that are written is one of their keys. -/
theorem Member.default?_mem_keys {ms : List Member} {key : String} (h : default? ms = some key) :
    key ∈ (entries ms).map Prod.fst := by
  obtain ⟨m, hm, rfl⟩ := Option.map_eq_some_iff.mp h
  exact Keyed.mem_keys_foldl_insert.mpr (.inr ⟨m, List.mem_of_find?_eq_some hm, rfl⟩)

end Names

/-! ### Values and expressions -/

mutual

theorem SpellsValue.wellFormed : ∀ {n o text v}, SpellsValue n o text v → v.WellFormed
  | _, _, _, _, .string _ hq hc _ => by
    refine ⟨hq, ?_⟩
    rwa [String.toList_ofList]
  | _, _, _, _, .array _ _ hitems _ => hitems.wellFormed
  | _, _, _, _, .object _ _ hmembers _ _ => by
    refine ⟨Keyed.nodup_foldl_insert List.nodup_nil, fun key => Member.default?_mem_keys,
      wellFormedMembers_iff.mpr fun entry hentry => ?_⟩
    obtain ⟨m, hm, rfl⟩ := Member.mem_entries hentry
    exact hmembers.wellFormed m hm

theorem SpellsOperand.wellFormed : ∀ {n o text e ending}, SpellsOperand n o text e ending →
    e.WellFormed
  | _, _, _, _, _, .integer hd => hd.2.2
  | _, _, _, _, _, .ident hname hd => by
    rw [Expr.WellFormed, String.toList_ofList]
    exact ⟨hname, hd⟩
  | _, _, _, _, _, .reference hid _ => hid.isName
  | _, _, _, _, _, .this => trivial
  | _, _, _, _, _, .value hv => hv.wellFormed
  | _, _, _, _, _, .parenthesis _ he _ _ => he.wellFormed
  | _, _, _, _, _, .call hname hd _ hargs _ => by
    rw [Expr.WellFormed, String.toList_ofList]
    exact ⟨⟨hname, hd⟩, hargs.wellFormed⟩
  | _, _, _, _, _, .select hname hd _ hkey _ _ => by
    rw [Expr.WellFormed, String.toList_ofList]
    exact ⟨⟨hname, hd⟩, hkey.wellFormed⟩

/-- By recursion on the derivation. The operands have the rank that the operator asks for. -/
theorem SpellsOperation.wellFormed : ∀ {rank n o text e ending},
    SpellsOperation rank n o text e ending → e.WellFormed
  | _, _, _, _, _, _, .operand h => h.wellFormed
  | _, _, _, _, _, _, .looser h => h.wellFormed
  | _, _, _, _, _, _, .unary _ _ harg _ => ⟨harg.le_rank, harg.wellFormed⟩
  | _, _, _, _, _, _, .binary hr hleft _ _ hright _ => by
    refine ⟨⟨?_, hleft.wellFormed⟩, ?_, hright.wellFormed⟩
    · rw [hr]
      exact hleft.le_rank
    · rw [hr]
      exact hright.le_rank
  | _, _, _, _, _, _, .choice ht _ _ hc _ _ ha _ =>
    ⟨⟨ht.le_rank, ht.wellFormed⟩, hc.wellFormed, ha.wellFormed⟩

theorem SpellsExpr.wellFormed : ∀ {n o text e ending}, SpellsExpr n o text e ending →
    e.WellFormed
  | _, _, _, _, _, .mk _ h => h.wellFormed

theorem SpellsItems.wellFormed : ∀ {n o text es}, SpellsItems n o text es → WellFormedItems es
  | _, _, _, _, .nil => trivial
  | _, _, _, _, .cons he _ _ hrest _ => ⟨he.wellFormed, hrest.wellFormed⟩

theorem SpellsMembers.wellFormed : ∀ {n o text ms}, SpellsMembers n o text ms →
    ∀ m ∈ ms, IsName m.key.toList ∧ m.value.WellFormed
  | _, _, _, _, .nil => by simp
  | _, _, _, _, .cons hkey he _ _ hrest _ =>
    List.forall_mem_cons.mpr ⟨⟨hkey.isName, he.wellFormed⟩, hrest.wellFormed⟩

theorem SpellsArguments.wellFormed : ∀ {n o text es}, SpellsArguments n o text es →
    WellFormedItems es
  | _, _, _, _, .none => trivial
  | _, _, _, _, .some h => h.wellFormed

theorem SpellsSequence.wellFormed : ∀ {n o text es}, SpellsSequence n o text es →
    WellFormedItems es
  | _, _, _, _, .last he _ _ => ⟨he.wellFormed, trivial⟩
  | _, _, _, _, .cons he _ _ hrest _ => ⟨he.wellFormed, hrest.wellFormed⟩

end

/-! ### Entries -/

section Entries

variable {n : Nesting} {o : Nat} {text : List Char}

theorem SpellsAttributes.wellFormed {attributes : List (String × Value)}
    (h : SpellsAttributes n o text attributes) :
    attributes ≠ [] ∧ ∀ a ∈ attributes, IsName a.1.toList ∧ a.2.WellFormed := by
  induction h with
  | last hkey hv _ _ => exact ⟨by simp, by simpa using ⟨hkey.isName, hv.wellFormed⟩⟩
  | cons hkey hv _ _ _ _ ih =>
    exact ⟨by simp, List.forall_mem_cons.mpr ⟨⟨hkey.isName, hv.wellFormed⟩, ih.2⟩⟩

/-- Attributes are kept under their keys: at least one if any is written, and none twice. -/
theorem SpellsTail.wellFormed {attrs : Option Attributes} (h : SpellsTail n o text attrs) :
    ∀ attributes : Attributes, attrs = some attributes → attributes.WellFormed := by
  intro attributes hattrs
  cases h with
  | bare => cases hattrs
  | @attributes _ written hwritten =>
    cases hattrs
    obtain ⟨hne, hall⟩ := hwritten.wellFormed
    refine ⟨fun hnil => ?_, Keyed.nodup_foldl_insert List.nodup_nil,
      fun a ha => (hall a (mem_attributesOf ha)).1, fun a ha => (hall a (mem_attributesOf ha)).2⟩
    obtain ⟨a, ha⟩ := List.exists_mem_of_ne_nil written hne
    have hkey : a.1 ∈ (attributesOf written).keys :=
      Keyed.mem_keys_foldl_insert.mpr (.inr ⟨a, ha, rfl⟩)
    rw [hnil] at hkey
    cases hkey

theorem SpellsIndex.wellFormed {es : Option (List Expr)} (h : SpellsIndex n o text es) :
    ∀ items, es = .some items → WellFormedItems items := by
  intro items hes
  cases h with
  | none => cases hes
  | some _ hitems _ =>
    cases hes
    exact hitems.wellFormed

theorem SpellsParameters.wellFormed {ids : List Ident} (h : SpellsParameters o text ids) :
    ∀ id ∈ ids, IsName id.name.toList := by
  induction h with
  | nil => simp
  | last hid _ _ => simpa using hid.isName
  | cons hid _ _ _ _ ih => exact List.forall_mem_cons.mpr ⟨hid.isName, ih⟩

/-- The parts of an entry are well formed, and its attributes are not empty. -/
theorem SpellsEntry.wellFormed {e : Entry} (h : SpellsEntry n o text e) : e.WellFormed := by
  cases h with
  | entity hid hindex _ _ hv _ htail _ =>
    exact ⟨hid.isName, hindex.wellFormed, hv.wellFormed, htail.wellFormed⟩
  | macroDef hid _ hparams _ _ hbody _ _ htail _ =>
    exact ⟨hid.isName, hparams.wellFormed, hbody.wellFormed, htail.wellFormed⟩

theorem SpellsBody.wellFormed {items : List Item} {s : Span} (h : SpellsBody n o text items) :
    Resource.WellFormed ⟨items, s⟩ := by
  rw [Resource.WellFormed]
  induction h with
  | done _ =>
    rw [← List.append_nil (gapItems _ _), entries_gapItems_append]
    simp [Resource.entries]
  | entry _ he _ _ ih =>
    rw [entries_gapItems_append]
    exact List.forall_mem_cons.mpr ⟨he.wellFormed, ih⟩

end Entries

/-- The default member of an object is found exactly when the object has a default key. -/
theorem Value.defaultMember?_isSome {members : List (String × Expr)} {default : Option String}
    {s : Span} (h : (Value.object members default s).WellFormed) :
    (Value.object members default s).defaultMember?.isSome = default.isSome := by
  obtain ⟨-, hdefault, -⟩ := h
  cases default with
  | none => rfl
  | some key =>
    obtain ⟨m, hm, hkey⟩ := List.mem_map.mp (hdefault key rfl)
    rw [Option.isSome_some, defaultMember?, List.find?_isSome]
    exact ⟨m, hm, by simpa using hkey⟩

namespace Resource

variable {limit : Option Nat} {source : String} {r : Resource}

theorem wellFormed_of_ofChars {text : List Char} (h : ofChars limit text = .ok r) : r.WellFormed := by
  obtain ⟨hbody, -⟩ := ofChars_eq_ok_iff.mp h
  exact hbody.wellFormed

/-- Every resource that is read is well formed, and in all its objects the default member is found
exactly when there is a default key. -/
theorem wellFormed_of_read (h : read limit source = .ok r) : r.WellFormed ∧
    ∀ members default s, r.Contains (.value (.object members default s)) →
      (Value.object members default s).defaultMember?.isSome = default.isSome := by
  constructor
  · obtain ⟨hbody, -⟩ := ofChars_eq_ok_iff.mp (read_eq_ok_iff_ofChars.mp h)
    intro e he
    have hsource : source.toList = [] ++ source.toList ++ [] := by simp
    have hitem : .entry e ∈ r.body := by
      obtain ⟨item, hitem, he⟩ := List.mem_filterMap.mp he
      cases item with
      | entry e' => exact Option.some.inj he ▸ hitem
      | gap g => cases he
    obtain ⟨_, _, _, _, hspells⟩ := hbody.spells_of_mem _ _ hsource rfl hitem
    exact hspells.wellFormed
  · intro members default s hcontains
    obtain ⟨_, _, _, _, hspelled⟩ := (row_of_contains h hcontains).part
    cases hspelled with
    | value hv => exact Value.defaultMember?_isSome hv.wellFormed

/-- Operators of several levels, an object with a default key, and an attribute. -/
theorem wellFormed_of_read_object : ∃ r,
    read none "<a \x7b b: 1 + 2 * -3, *c: ~ == 'd' ? 1 : 2 \x7d e: 'f'>" = .ok r ∧ r.WellFormed ∧
      ∀ members default s, r.Contains (.value (.object members default s)) →
        (Value.object members default s).defaultMember?.isSome = default.isSome := by
  obtain ⟨r, hr⟩ : ∃ r, read none "<a \x7b b: 1 + 2 * -3, *c: ~ == 'd' ? 1 : 2 \x7d e: 'f'>" = .ok r :=
    exists_of_isOk (by decide +kernel)
  exact ⟨r, hr, wellFormed_of_read hr⟩

end Resource

end LocaleText
