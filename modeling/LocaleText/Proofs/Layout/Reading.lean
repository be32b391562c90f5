import LocaleText.Proofs.Nesting.Need
import LocaleText.Proofs.Reading.Entry

/-!
# Every layout is read

Each text that writes a well-formed tree spells that tree up to spans, at any offset and wherever
the nesting limit allows the levels that the tree needs. The derivation follows the layout; where an
operand is to stand at a tighter level than the loosest one, the rank of the tree says that it does.

* `NameLayout.spells` and `KeyLayout.spells` are the tokens
* `SpellsOperation.loosen` lets an operation stand where looser ones may
* `ExprLayout.spells` is the step for expressions, by induction on the layout, together with
  `ValueLayout.spells` and those of the lists
* `EntryLayout.spells` and `BodyLayout.spells` are about entries and whole sources
* `Resource.read_layout` is the result for a source
-/

namespace LocaleText

/-! ### Names and keyed lists -/

section Names

variable {text : List Char} {name : String} {ending : Ending}

/-- A name is written as it is read. -/
theorem NameLayout.spells (h : NameLayout text name ending) (hn : IsName name.toList) :
    NameText text name ending := by
  have hname : String.ofList name.toList = name := String.ofList_toList
  rw [← hname]
  cases h with
  | bare => exact .bare hn
  | opened hq => exact .opened hn hq
  | quoted hq => exact .quoted hn hq

theorem KeyLayout.spells (h : KeyLayout text name) (hn : IsName name.toList) :
    KeyText text name := by
  obtain ⟨hname, hg, hg'⟩ := h
  exact .mk (hname.spells hn) hg hg'

end Names

section Keys

variable {α : Type} {key : String} {value : α} {entries entries' : Keyed α}

theorem Keyed.insert_of_not_mem (h : key ∉ entries.map Prod.fst) :
    entries.insert key value = entries ++ [(key, value)] := by
  induction entries with
  | nil => rfl
  | cons entry rest ih =>
    obtain ⟨k, v⟩ := entry
    simp only [List.map_cons, List.mem_cons, not_or] at h
    have hk : k ≠ key := fun he => h.1 he.symm
    simp only [Keyed.insert, hk, if_false, List.cons_append, ih h.2]

/-- Keys that are all different stay where they are. -/
theorem Keyed.foldl_insert (entries : Keyed α)
    (h : ((entries ++ entries').map Prod.fst).Nodup) :
    entries'.foldl (fun entries entry => entries.insert entry.1 entry.2) entries =
      entries ++ entries' := by
  induction entries' generalizing entries with
  | nil => exact (List.append_nil entries).symm
  | cons entry rest ih =>
    have hnot : entry.1 ∉ entries.map Prod.fst := by
      rw [List.map_append, List.nodup_append] at h
      intro hmem
      exact h.2.2 entry.1 hmem entry.1 (by simp) rfl
    have hsplit : entries ++ entry :: rest = (entries ++ [entry]) ++ rest := by simp
    rw [hsplit] at h ⊢
    rw [List.foldl_cons, Keyed.insert_of_not_mem hnot]
    exact ih _ h

/-- Where no key is repeated, all attributes stay as they are written. -/
theorem attributesOf_of_nodup {attributes : List (String × Value)}
    (h : (attributes.map Prod.fst).Nodup) : attributesOf attributes = attributes :=
  Keyed.foldl_insert [] h

end Keys

namespace Member

def entry (m : Member) : String × Expr := (m.key, m.value)

variable {ms : List Member} {default : Option String}

theorem map_fst_entry : (ms.map entry).map Prod.fst = ms.map Member.key := by
  rw [List.map_map]
  rfl

theorem entries_of_nodup (h : (ms.map Member.key).Nodup) : entries ms = ms.map entry := by
  rw [← map_fst_entry] at h
  have hfold := Keyed.foldl_insert [] h
  rw [List.foldl_map] at hfold
  exact hfold

/-- Of members with different keys, only the one under the default key is marked. -/
theorem countP_marked_le (hmark : ∀ m ∈ ms, m.marked = decide (default = some m.key))
    (h : (ms.map Member.key).Nodup) : ms.countP Member.marked ≤ 1 := by
  cases default with
  | none =>
    have hzero : ms.countP Member.marked = 0 := by
      rw [List.countP_eq_zero]
      intro m hm
      simp [hmark m hm]
    omega
  | some key =>
    have hcount : ms.countP Member.marked = (ms.map Member.key).count key := by
      rw [List.count, List.countP_map]
      refine List.countP_congr ?_
      intro m hm
      rw [hmark m hm, decide_eq_true_iff, Function.comp_apply, beq_iff_eq, Option.some.injEq]
      exact eq_comm
    rw [hcount]
    exact List.nodup_iff_count.mp h key

theorem default?_of_marks (hmark : ∀ m ∈ ms, m.marked = decide (default = some m.key))
    (hmem : ∀ key, default = some key → key ∈ ms.map Member.key) : default? ms = default := by
  rw [default?]
  cases hfind : ms.find? Member.marked with
  | some m =>
    have hm := hmark m (List.mem_of_find?_eq_some hfind)
    rw [List.find?_some hfind] at hm
    exact (of_decide_eq_true hm.symm).symm
  | none =>
    cases default with
    | none => rfl
    | some key =>
      obtain ⟨m, hm, hkey⟩ := List.mem_map.mp (hmem key rfl)
      have hnone := List.find?_eq_none.mp hfind m hm
      rw [hmark m hm, hkey] at hnone
      exact absurd (by simp) hnone

end Member

/-! ### Values and expressions -/

section Texts

variable {text : List Char} {e : Expr} {ending : Ending} {k o rank rank' : Nat} {n : Nesting}

theorem bareMembers_map_entry (ms : List Member) :
    (bareMembers (ms.map Member.entry)).map Prod.fst = ms.map Member.key := by
  induction ms with
  | nil => rfl
  | cons m ms ih => exact congrArg (m.key :: ·) ih

theorem bareMembers_eq_map (members : List (String × Expr)) :
    bareMembers members = members.map fun member => (member.1, member.2.bare) := by
  induction members with
  | nil => rfl
  | cons member members ih => rw [bareMembers, ih, List.map_cons]

theorem map_fst_bareMembers (ms : List (String × Expr)) :
    (bareMembers ms).map Prod.fst = ms.map Prod.fst := by
  induction ms with
  | nil => rfl
  | cons m ms ih => exact congrArg (m.1 :: ·) ih

/-- A tight operation stands where a looser one may. -/
theorem SpellsOperation.loosen (h : SpellsOperation rank n o text e ending) (hle : rank' ≤ rank) :
    SpellsOperation rank' n o text e ending := by
  induction hle with
  | refl => exact h
  | step _ ih => exact ih (.looser h)

theorem Nesting.Allows.hasRoom (h : n.Allows (1 + k)) : n.HasRoom :=
  hasRoom_iff.mpr (h.mono (Nat.le_add_right 1 k))

/-- Where the levels of an expression are allowed, an operation of any rank is an expression. -/
theorem SpellsOperation.expr (h : SpellsOperation rank n.deeper o text e ending)
    (hn : n.Allows (1 + k)) : SpellsExpr n o text e ending :=
  .mk hn.hasRoom (h.loosen (Nat.zero_le rank))

/-- An operand stands at every rank. -/
theorem spells_of_operand {e' : Expr} (hrank : e.rank = 8) (hbare : e'.bare = e.bare)
    (h : SpellsOperand n o text e' ending) :
    ∃ e', e'.bare = e.bare ∧ SpellsOperation e.rank n o text e' ending := by
  refine ⟨e', hbare, ?_⟩
  rw [hrank]
  exact .operand h

end Texts

mutual

theorem ValueLayout.spells : ∀ {text v} {n : Nesting} {o : Nat}, ValueLayout text v → v.WellFormed →
    n.Allows v.need → ∃ v', v'.bare = v.bare ∧ SpellsValue n o text v'
  | _, _, _, _, .string, hw, hn => by
    refine ⟨_, ?_, .string (Nesting.hasRoom_iff.mpr hn) hw.1 hw.2 rfl⟩
    simp only [Value.bare, String.ofList_toList]
  | _, _, _, _, .array hg hitems, hw, hn => by
    obtain ⟨es', hbare, hspells⟩ := hitems.spells hw (Nesting.allows_deeper.mpr hn)
    refine ⟨_, ?_, .array hn.hasRoom hg hspells rfl⟩
    simp only [Value.bare, hbare]
  | _, _, _, _, @ValueLayout.object _ _ ms _ _ hg hmembers, hw, hn => by
    obtain ⟨hnodup, hdefault, hitems⟩ := hw
    obtain ⟨ms', hbare, hmark, hspells⟩ := hmembers.spells hitems (Nesting.allows_deeper.mpr hn)
    have hkeys : ms'.map Member.key = ms.map Prod.fst := by
      rw [← bareMembers_map_entry, hbare, map_fst_bareMembers]
    rw [← hkeys] at hnodup hdefault
    refine ⟨_, ?_, .object hn.hasRoom hg hspells (Member.countP_marked_le hmark hnodup) rfl⟩
    simp only [Value.bare, Member.entries_of_nodup hnodup, hbare,
      Member.default?_of_marks hmark hdefault]

/-- The rank of the tree is the rank at which its text is an operation. -/
theorem ExprLayout.spells : ∀ {text e ending} {n : Nesting} {o : Nat}, ExprLayout text e ending →
    e.WellFormed → n.Allows e.inside →
    ∃ e', e'.bare = e.bare ∧ SpellsOperation e.rank n o text e' ending
  | _, _, _, _, _, .integer hne hd, hw, _ => by
    refine spells_of_operand rfl ?_ (.integer ⟨hne, hd, hw⟩)
    rfl
  | _, _, _, _, _, .ident, hw, _ => by
    refine spells_of_operand rfl ?_ (.ident hw.1 hw.2)
    simp only [Expr.bare, Ident.bare, String.ofList_toList]
  | _, _, _, _, _, .reference hname, hw, _ => by
    refine spells_of_operand rfl ?_ (.reference (hname.spells hw) rfl)
    rfl
  | _, _, _, _, _, .this, hw, _ => by
    refine spells_of_operand rfl ?_ .this
    rfl
  | _, _, _, _, _, .value hvalue, hw, hn => by
    obtain ⟨v', hbare, hspells⟩ := hvalue.spells hw hn
    refine spells_of_operand rfl ?_ (.value hspells)
    simp only [Expr.bare, hbare]
  | _, _, _, _, _, .parenthesis hg hinner hg', hw, hn => by
    obtain ⟨e', hbare, hspells⟩ := hinner.spells hw (Nesting.allows_deeper.mpr hn)
    refine spells_of_operand rfl ?_ (.parenthesis hg (hspells.expr hn) hg' rfl)
    simp only [Expr.bare, hbare]
  | _, _, _, _, _, .call hg hargs, hw, hn => by
    obtain ⟨hname, hitems⟩ := hw
    obtain ⟨es', hbare, hspells⟩ := hargs.spells hitems hn
    refine spells_of_operand rfl ?_ (.call hname.1 hname.2 hg hspells rfl)
    simp only [Expr.bare, Ident.bare, String.ofList_toList, hbare]
  | _, _, _, _, _, .select hg hkey hg', hw, hn => by
    obtain ⟨hname, hkw⟩ := hw
    obtain ⟨e', hbare, hspells⟩ := hkey.spells hkw (Nesting.allows_deeper.mpr hn)
    refine spells_of_operand rfl ?_ (.select hname.1 hname.2 hg (hspells.expr hn) hg' rfl)
    simp only [Expr.bare, Ident.bare, String.ofList_toList, hbare]
  | _, _, _, _, _, .unary hg harg, hw, hn => by
    obtain ⟨hrank, harg'⟩ := hw
    obtain ⟨e', hbare, hspells⟩ := harg.spells harg' (Nesting.allows_deeper.mpr hn)
    refine ⟨_, ?_, .unary hn.hasRoom hg (hspells.loosen hrank) rfl⟩
    simp only [Expr.bare, hbare]
  | _, _, _, _, _, .binary hl hg hg' hr, hw, hn => by
    obtain ⟨⟨hlr, hlw⟩, hrr, hrw⟩ := hw
    obtain ⟨hln, hrn⟩ := Nesting.allows_max.mp hn
    obtain ⟨l', hlbare, hlspells⟩ := hl.spells hlw hln
    obtain ⟨r', hrbare, hrspells⟩ := hr.spells hrw hrn
    refine ⟨_, ?_, .binary rfl (hlspells.loosen hlr) hg hg' (hrspells.loosen hrr) rfl⟩
    simp only [Expr.bare, hlbare, hrbare]
  | _, _, _, _, _, .conditional ht hg₁ hg₂ hc hg₃ hg₄ ha, hw, hn => by
    obtain ⟨⟨htr, htw⟩, hcw, haw⟩ := hw
    obtain ⟨htn, hbranches⟩ := Nesting.allows_max.mp hn
    obtain ⟨hcn, han⟩ := Nesting.allows_max.mp hbranches
    obtain ⟨t', htbare, htspells⟩ := ht.spells htw htn
    obtain ⟨c', hcbare, hcspells⟩ := hc.spells hcw (Nesting.allows_deeper.mpr hcn)
    obtain ⟨a', habare, haspells⟩ := ha.spells haw (Nesting.allows_deeper.mpr han)
    refine ⟨_, ?_, .choice (htspells.loosen htr) hg₁ hg₂ (hcspells.expr hcn) hg₃ hg₄
      (haspells.expr han) rfl⟩
    simp only [Expr.bare, htbare, hcbare, habare]

theorem ItemsLayout.spells : ∀ {text es} {n : Nesting} {o : Nat}, ItemsLayout text es →
    WellFormedItems es → n.Allows (needItems es) →
    ∃ es', bareItems es' = bareItems es ∧ SpellsItems n o text es'
  | _, _, _, _, .nil, _, _ => ⟨[], rfl, .nil⟩
  | _, _, _, _, .cons he hg hs hrest, hw, hn => by
    obtain ⟨hen, hrn⟩ := Nesting.allows_max.mp hn
    obtain ⟨e', hbare, hspells⟩ := he.spells hw.1 (Nesting.allows_deeper.mpr hen)
    obtain ⟨es', hbares, hrests⟩ := hrest.spells hw.2 hrn
    refine ⟨e' :: es', ?_, .cons (hspells.expr hen) hg hs hrests rfl⟩
    simp only [bareItems, hbare, hbares]

/-- The mark stands before the default key and nowhere else. -/
theorem MembersLayout.spells : ∀ {default text ms} {n : Nesting} {o : Nat},
    MembersLayout default text ms → WellFormedMembers ms → n.Allows (needMembers ms) →
    ∃ ms' : List Member, bareMembers (ms'.map Member.entry) = bareMembers ms ∧
      (∀ m ∈ ms', m.marked = decide (default = some m.key)) ∧ SpellsMembers n o text ms'
  | _, _, _, _, _, .nil, _, _ => ⟨[], rfl, by simp, .nil⟩
  | default, _, _, _, o, @MembersLayout.cons _ key _ _ _ _ name _ _ _ hkey he hg hs hrest, hw, hn => by
    obtain ⟨⟨hname, hew⟩, hrw⟩ := hw
    obtain ⟨hen, hrn⟩ := Nesting.allows_max.mp hn
    obtain ⟨e', hbare, hspells⟩ :=
      he.spells (o := o + byteLength (markOf default name ++ key)) hew (Nesting.allows_deeper.mpr hen)
    obtain ⟨ms', hbares, hmarks, hrests⟩ := hrest.spells hrw hrn
    have hmark : Member.mark ⟨decide (default = some name), name, e'⟩ = markOf default name := by
      simp only [Member.mark, markOf, decide_eq_true_eq]
    have hexpr := hspells.expr hen
    rw [← hmark] at hexpr
    refine ⟨⟨decide (default = some name), name, e'⟩ :: ms', ?_, ?_,
      .cons (hkey.spells hname) hexpr hg hs hrests (by rw [hmark])⟩
    · simp only [List.map_cons, Member.entry, bareMembers, hbare, hbares]
    · intro m hmem
      rcases List.mem_cons.mp hmem with rfl | hmem
      · rfl
      · exact hmarks m hmem

theorem ArgumentsLayout.spells : ∀ {text es} {n : Nesting} {o : Nat}, ArgumentsLayout text es →
    WellFormedItems es → n.Allows (needItems es) →
    ∃ es', bareItems es' = bareItems es ∧ SpellsArguments n o text es'
  | _, _, _, _, .none, _, _ => ⟨[], rfl, .none⟩
  | _, _, _, _, .last he hg, hw, hn => by
    obtain ⟨hen, -⟩ := Nesting.allows_max.mp hn
    obtain ⟨e', hbare, hspells⟩ := he.spells hw.1 (Nesting.allows_deeper.mpr hen)
    refine ⟨[e'], ?_, .some (.last (hspells.expr hen) hg rfl)⟩
    simp only [bareItems, hbare]
  | _, _, _, _, .cons he hg hg' hrest, hw, hn => by
    obtain ⟨hen, hrn⟩ := Nesting.allows_max.mp hn
    obtain ⟨e', hbare, hspells⟩ := he.spells hw.1 (Nesting.allows_deeper.mpr hen)
    obtain ⟨es', hbares, hrests⟩ := hrest.spells hw.2 hrn
    cases hrests with
    | none => exact absurd hbares (by simp [bareItems])
    | some hsequence =>
      refine ⟨e' :: es', ?_, .some (.cons (hspells.expr hen) hg hg' hsequence rfl)⟩
      rw [bareItems, hbare, hbares]
      rfl

end

/-! ### Entries -/

section Entries

variable {text : List Char} {o : Nat} {n : Nesting}

theorem Attributes.map_fst_bare (attributes : Attributes) :
    attributes.bare.map Prod.fst = attributes.map Prod.fst := by
  rw [Attributes.bare, List.map_map]
  rfl

theorem AttributesLayout.spells {attributes : Attributes} (h : AttributesLayout text attributes)
    (hk : ∀ a ∈ attributes, IsName a.1.toList) (hv : ∀ a ∈ attributes, a.2.WellFormed)
    (hn : n.Allows attributes.need) : ∃ attributes' : Attributes,
      attributes'.bare = attributes.bare ∧ SpellsAttributes n o text attributes' := by
  induction h generalizing o with
  | last hkey hvalue hg =>
    obtain ⟨hvn, -⟩ := Nesting.allows_max.mp hn
    obtain ⟨v', hbare, hspells⟩ := hvalue.spells (hv _ (List.mem_cons_self ..)) hvn
    refine ⟨[(_, v')], ?_, .last (hkey.spells (hk _ (List.mem_cons_self ..))) hspells hg rfl⟩
    simp only [Attributes.bare, List.map_cons, List.map_nil, hbare]
  | cons hkey hvalue hg hg' _ ih =>
    obtain ⟨hvn, hrn⟩ := Nesting.allows_max.mp hn
    obtain ⟨v', hbare, hspells⟩ := hvalue.spells (hv _ (List.mem_cons_self ..)) hvn
    obtain ⟨rest', hbares, hrests⟩ := ih (fun a ha => hk a (List.mem_cons_of_mem _ ha))
      (fun a ha => hv a (List.mem_cons_of_mem _ ha)) hrn
    refine ⟨(_, v') :: rest', ?_,
      .cons (hkey.spells (hk _ (List.mem_cons_self ..))) hspells hg hg' hrests rfl⟩
    simp only [Attributes.bare] at hbares
    simp only [Attributes.bare, List.map_cons, hbare, hbares]

theorem TailLayout.spells {attrs : Option Attributes} (h : TailLayout text attrs)
    (hw : ∀ attributes : Attributes, attrs = some attributes → attributes.WellFormed)
    (hn : n.Allows (Attributes.need (attrs.getD []))) :
    ∃ attrs', attrs'.map Attributes.bare = attrs.map Attributes.bare ∧
      SpellsTail n o text attrs' := by
  cases h with
  | bare => exact ⟨none, rfl, .bare⟩
  | @attributes _ attributes hattributes =>
    obtain ⟨_, hnodup, hk, hv⟩ := hw attributes rfl
    obtain ⟨attributes', hbare, hspells⟩ := hattributes.spells (o := o) hk hv hn
    rw [← Attributes.map_fst_bare, ← hbare, Attributes.map_fst_bare] at hnodup
    refine ⟨some (attributesOf attributes'), ?_, .attributes hspells⟩
    simp only [attributesOf_of_nodup hnodup, Option.map_some, hbare]

theorem IndexLayout.spells {es : Option (List Expr)} (h : IndexLayout text es)
    (hw : ∀ items, es = .some items → WellFormedItems items)
    (hn : n.Allows (needItems (es.getD []))) :
    ∃ es', es'.map bareItems = es.map bareItems ∧ SpellsIndex n o text es' := by
  cases h with
  | none => exact ⟨.none, rfl, .none⟩
  | @some _ _ es hg hitems =>
    obtain ⟨es', hbare, hspells⟩ := hitems.spells (hw es rfl) hn
    refine ⟨.some es', ?_, .some hg hspells rfl⟩
    simp only [Option.map_some, hbare]

theorem ParametersLayout.spells {ids : List Ident} (h : ParametersLayout text ids)
    (hw : ∀ id ∈ ids, IsName id.name.toList) :
    ∃ ids', ids'.map Ident.bare = ids.map Ident.bare ∧ SpellsParameters o text ids' := by
  induction h generalizing o with
  | nil => exact ⟨[], rfl, .nil⟩
  | last hname hg =>
    have htext := hname.spells (hw _ (List.mem_cons_self ..))
    refine ⟨[_], ?_, .last htext hg rfl⟩
    rfl
  | cons hname hg hg' _ ih =>
    have htext := hname.spells (hw _ (List.mem_cons_self ..))
    obtain ⟨ids', hbare, hspells⟩ := ih fun id hid => hw id (List.mem_cons_of_mem _ hid)
    refine ⟨_ :: ids', ?_, .cons htext hg hg' hspells rfl⟩
    rw [List.map_cons, List.map_cons, hbare]
    rfl

/-- An entity or a macro, each of its parts at its own offset. -/
theorem EntryLayout.spells {e : Entry} (h : EntryLayout text e) (hw : e.WellFormed)
    (hn : n.Allows e.need) : ∃ e', e'.bare = e.bare ∧ SpellsEntry n o text e' := by
  cases h with
  | entity hid hindex hbefore happart hvalue hbehind htail =>
    obtain ⟨hname, hiw, hvw, haw⟩ := hw
    obtain ⟨hin, hrest⟩ := Nesting.allows_max.mp hn
    obtain ⟨hvn, han⟩ := Nesting.allows_max.mp hrest
    obtain ⟨es', hibare, hispells⟩ := hindex.spells hiw hin
    obtain ⟨v', hvbare, hvspells⟩ := hvalue.spells hvw hvn
    obtain ⟨attrs', habare, haspells⟩ := htail.spells haw han
    refine ⟨_, ?_, .entity (hid.spells hname) hispells hbefore ?_ hvspells hbehind haspells rfl⟩
    · simp only [Entry.bare, Entity.bare, Ident.bare, hibare, hvbare, habare]
    · intro hnone
      rw [hnone, Option.map_none, eq_comm, Option.map_eq_none_iff] at hibare
      exact happart hibare
  | macroDef hid hg₁ hparams hg₂ hg₃ hbody hg₄ hg₅ htail =>
    obtain ⟨hname, hpw, hbw, haw⟩ := hw
    obtain ⟨ids', hpbare, hpspells⟩ := hparams.spells hpw
    obtain ⟨hbn, han⟩ := Nesting.allows_max.mp hn
    obtain ⟨body', hbbare, hbspells⟩ := hbody.spells hbw (Nesting.allows_deeper.mpr hbn)
    obtain ⟨attrs', habare, haspells⟩ := htail.spells haw han
    refine ⟨_, ?_, .macroDef (hid.spells hname) hg₁ hpspells hg₂ hg₃ (hbspells.expr hbn) hg₄ hg₅
      haspells rfl⟩
    simp only [Entry.bare, Macro.bare, Ident.bare, hpbare, hbbare, habare]

/-- The entries among the items of a body. -/
theorem entries_gapItems_append {blanks : List Char} {items : List Item} {s : Span} :
    Resource.entries ⟨gapItems o blanks ++ items, s⟩ = Resource.entries ⟨items, s⟩ := by
  by_cases h : blanks = []
  · simp [gapItems, h]
  · simp [gapItems, h, Resource.entries]

theorem BodyLayout.spells_of_allows {es : List Entry} {s : Span} (h : BodyLayout text es)
    (hw : ∀ e ∈ es, e.WellFormed) (hn : n.Allows (needEntries es)) :
    ∃ items, (Resource.entries ⟨items, s⟩).map Entry.bare = es.map Entry.bare ∧
      SpellsBody n o text items := by
  induction h generalizing o with
  | done hg =>
    refine ⟨_, ?_, .done hg⟩
    rw [← List.append_nil (gapItems _ _), entries_gapItems_append]
    rfl
  | @entry _ _ _ e _ hg he _ ih =>
    obtain ⟨hen, hrn⟩ := Nesting.allows_max.mp hn
    obtain ⟨e', hbare, hspells⟩ := he.spells (hw _ (List.mem_cons_self ..)) hen
    obtain ⟨items, hbares, hrests⟩ := ih (fun e he => hw e (List.mem_cons_of_mem _ he)) hrn
    refine ⟨_, ?_, .entry hg hspells hrests rfl⟩
    rw [entries_gapItems_append, List.map_cons, ← hbare, ← hbares]
    rfl

/-- Without a limit all levels are allowed. -/
theorem BodyLayout.spells {depth : Nat} {es : List Entry} {s : Span} (h : BodyLayout text es)
    (hw : ∀ e ∈ es, e.WellFormed) :
    ∃ items, (Resource.entries ⟨items, s⟩).map Entry.bare = es.map Entry.bare ∧
      SpellsBody ⟨none, depth⟩ o text items :=
  h.spells_of_allows hw (Nesting.allows_of_none rfl)

end Entries

namespace Resource

/-- Reading is complete: without a limit, every layout of a well-formed resource is read, and the
entries are those of the resource, up to spans and recorded blanks. -/
theorem read_layout (r : Resource) (source : String) (hw : r.WellFormed)
    (hl : BodyLayout source.toList r.entries) :
    ∃ r', read none source = .ok r' ∧ r'.entries.map Entry.bare = r.entries.map Entry.bare := by
  obtain ⟨items, hbare, hspells⟩ := hl.spells (s := extent 0 source.toList) hw
  refine ⟨⟨items, extent 0 source.toList⟩, ?_, hbare⟩
  rw [read_eq_ok_iff_ofChars, ofChars_eq_ok_iff]
  exact ⟨hspells, rfl⟩

/-- An entity and a macro. -/
def sample : Resource :=
  ⟨[.entry (.entity ⟨⟨"a", default⟩, none, default, .string "b" '\'' default, default, none, default⟩),
    .entry (.macroDef ⟨⟨"f", default⟩, [⟨"n", default⟩],
      .conditional
        (.binary .eq (.reference .variable ⟨"n", default⟩ default) (.integer 1 default) default)
        (.this default) (.unary .minus (.integer 2 default) default) default,
      none, default⟩)], default⟩

theorem sample_wellFormed : sample.WellFormed := by
  have ha : IsName "a".toList := by decide +kernel
  have hf : IsName "f".toList := by decide +kernel
  have hn : IsName "n".toList := by decide +kernel
  have hcontent : StringContent '\'' 0 "b".toList := by
    simp [stringContent_cons, stringContent_nil, backslashesBehind]
  have hint : 1 < integerBound ∧ 2 < integerBound := by decide
  intro e he
  simp only [entries, sample, List.filterMap_cons, List.filterMap_nil, List.mem_cons,
    List.not_mem_nil, or_false] at he
  rcases he with rfl | rfl
  · exact ⟨ha, by simp, ⟨by decide, hcontent⟩, by simp⟩
  · refine ⟨hf, by simpa using hn, ?_, by simp⟩
    exact ⟨⟨by decide, ⟨by decide, hn⟩, by decide, hint.1⟩, trivial, by decide, hint.2⟩

theorem sample_layout : BodyLayout "<a'b'> <f($n)\x7b$n==1?~:-2\x7d>".toList sample.entries := by
  have hb : Blanks [] := by decide
  have hs : Blanks [' '] := by decide
  have hn : ExprLayout _ (.reference .variable ⟨"n", default⟩ default) _ := .reference .bare
  have hone : ExprLayout ['1'] (.integer 1 default) .digits := .integer (by simp) (by simp)
  have htwo : ExprLayout ['2'] (.integer 2 default) .digits := .integer (by simp) (by simp)
  have htest : ExprLayout _ (.binary .eq _ _ default) _ := .binary hn hb hb hone
  have halternate : ExprLayout _ (.unary .minus _ default) _ := .unary hb htwo
  have hbody : ExprLayout _ (.conditional _ (.this default) _ default) _ :=
    .conditional htest hb hb .this hb hb halternate
  have hentity := EntryLayout.entity (e := ⟨⟨"a", default⟩, none, default,
    .string "b" '\'' default, default, none, default⟩) .bare .none hb
    (fun _ _ => nextNot_cons.mpr (by decide)) .string hb .bare
  have hmacro := EntryLayout.macroDef (m := ⟨⟨"f", default⟩, [⟨"n", default⟩], _, none, default⟩)
    .bare hb (.last .bare hb) hb hb hbody hb hb .bare
  exact .entry hb hentity (.entry hs hmacro (.done hb))

theorem read_layout_sample :
    ∃ r', read none "<a'b'> <f($n)\x7b$n==1?~:-2\x7d>" = .ok r' ∧
      r'.entries.map Entry.bare = sample.entries.map Entry.bare :=
  read_layout sample _ sample_wellFormed sample_layout

end Resource

end LocaleText
