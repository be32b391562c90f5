import LocaleText.Proofs.Spacing.Expr
import LocaleText.Proofs.Writing.Outline

/-!
# Resources with other blanks

Outside of strings it does not matter which blanks stand where there are blanks at all: a source
whose blanks are replaced, at one place, by other blanks is read under the same limit as the same
tree, up to spans and recorded blanks.

* `SpellsAttributes.respaced`, `SpellsIndex.respaced` and `SpellsParameters.respaced` are the parts
  of an entry
* `SpellsEntry.respaced` and `SpellsBody.respaced` follow the derivation
* `Resource.read_respaced` is the result for a source that is read
* `Resource.read_respaced_behind_string` is a source in which the blanks behind a string are
  replaced
-/

namespace LocaleText

section Respaced

variable {run : Span} {n : Nesting} {o : Nat} {text text' s : List Char}

/-! ### Attributes -/

/-- Attributes that differ at most in values with a string that holds the run. -/
def Attributes.Kept (run : Span) : Attributes → Attributes → Prop :=
  Keyed.Alike fun v v' => (Node.value v).Untouched run → v'.bare = v.bare

theorem SpellsAttributes.begins {attributes : List (String × Value)}
    (h : SpellsAttributes n o text attributes) : NextNot isBlank text := by
  cases h with
  | last hkey _ _ ht =>
    obtain ⟨c, cs, rfl, hc⟩ := hkey.exists_cons
    rw [ht]
    exact nextNot_cons.mpr (key_head hc).1
  | cons hkey _ _ _ _ ht =>
    obtain ⟨c, cs, rfl, hc⟩ := hkey.exists_cons
    rw [ht]
    exact nextNot_cons.mpr (key_head hc).1

/-- By induction on the attributes. -/
theorem SpellsAttributes.respaced {attributes : List (String × Value)}
    (h : SpellsAttributes n o text attributes) (hr : Respaced run o text text') (o' : Nat) :
    ∃ attributes', SpellsAttributes n o' text' attributes' ∧
      Attributes.Kept run attributes attributes' := by
  induction h generalizing text' o' with
  | last hkey hv hg ht =>
    rw [ht] at hr
    obtain ⟨_, _, rfl, hr₁, hblanks, -⟩ := hr.gap (hv.ended.append _) hg
    obtain ⟨_, _, rfl, hr₂, hvalue⟩ := hr₁.part hv.begins
    obtain ⟨_, hv', hbare⟩ := hv.respaced hvalue (o' + byteLength _)
    exact ⟨_, .last (hkey.respaced hr₂) hv' hblanks rfl, .cons ⟨rfl, hbare⟩ .nil⟩
  | cons hkey hv hg hg' hrest ht ih =>
    rw [ht] at hr
    obtain ⟨_, _, rfl, hr₁, hbehind⟩ := hr.part hrest.begins
    obtain ⟨_, _, rfl, hr₂, hblanks', -⟩ := hr₁.gap (.concat _ (by decide)) hg'
    obtain ⟨_, rfl, hr₃⟩ := hr₂.token (by decide)
    obtain ⟨_, _, rfl, hr₄, hblanks, -⟩ := hr₃.gap (hv.ended.append _) hg
    obtain ⟨_, _, rfl, hr₅, hvalue⟩ := hr₄.part hv.begins
    obtain ⟨_, hv', hbare⟩ := hv.respaced hvalue (o' + byteLength _)
    obtain ⟨_, hrest', hkept⟩ := ih hbehind (o' + byteLength _)
    exact ⟨_, .cons (hkey.respaced hr₅) hv' hblanks hblanks' hrest' rfl, .cons ⟨rfl, hbare⟩ hkept⟩

theorem SpellsTail.begins {attrs : Option Attributes} (h : SpellsTail n o text attrs) :
    NextNot isBlank text := by
  cases h with
  | bare => exact nextNot_cons.mpr (by decide)
  | attributes h => exact h.begins.append (nextNot_cons.mpr (by decide))

theorem SpellsTail.respaced {attrs : Option Attributes} (h : SpellsTail n o text attrs)
    (hr : Respaced run o text text') (o' : Nat) : ∃ attrs', SpellsTail n o' text' attrs' ∧
      ((∀ a ∈ attrs.getD [], (Node.value a.2).Untouched run) →
        attrs'.map Attributes.bare = attrs.map Attributes.bare) := by
  cases h with
  | bare =>
    obtain rfl := hr.eq_of_tight (by decide)
    exact ⟨_, .bare, fun _ => rfl⟩
  | attributes h =>
    obtain ⟨_, rfl, hr₁⟩ := hr.token (by decide)
    obtain ⟨_, h', hkept⟩ := h.respaced hr₁ o'
    have hall : Attributes.Kept run (attributesOf _) (attributesOf _) := .foldl_insert hkept .nil
    exact ⟨_, .attributes h', fun hu => congrArg some (hall.map_eq hu)⟩

/-! ### Entries -/

theorem SpellsIndex.begins {es : Option (List Expr)} (h : SpellsIndex n o text es) :
    NextNot isBlank text := by
  cases h with
  | none => exact nextNot_nil isBlank
  | some _ _ ht =>
    rw [ht]
    exact nextNot_cons.mpr (by decide)

/-- What stands before the value ends with no blank, be it the name or the index. -/
theorem SpellsIndex.ended {es : Option (List Expr)} (h : SpellsIndex n o text es) (hs : Ended s) :
    Ended (s ++ text) := by
  cases h with
  | none => rwa [List.append_nil]
  | some _ _ ht =>
    rw [ht]
    exact .append _ (.concat _ (by decide))

/-- An index stays an index. -/
theorem SpellsIndex.respaced {es : Option (List Expr)} (h : SpellsIndex n o text es)
    (hr : Respaced run o text text') (o' : Nat) : ∃ es', SpellsIndex n o' text' es' ∧
      (es' = .none → es = .none) ∧ ((∀ e ∈ es.getD [], (Node.expr e).Untouched run) →
        es'.map bareItems = es.map bareItems) := by
  cases h with
  | none =>
    obtain rfl := hr.nil
    exact ⟨_, .none, id, fun _ => rfl⟩
  | some hg hitems ht =>
    rw [ht] at hr
    obtain ⟨_, rfl, hr₁⟩ := hr.token (by decide)
    obtain ⟨_, _, rfl, hr₂, hrest⟩ := hr₁.part hitems.begins
    obtain ⟨_, _, rfl, hr₃, hblanks, -⟩ := hr₂.gap (.concat [] (by decide)) hg
    obtain rfl := hr₃.eq_of_tight (by decide)
    obtain ⟨_, hitems', hbare⟩ := hitems.respaced hrest (o' + byteLength _)
    exact ⟨_, .some hblanks hitems' rfl, nofun, fun hu => congrArg Option.some (hbare hu)⟩

theorem SpellsParameters.begins {ids : List Ident} (h : SpellsParameters o text ids) :
    NextNot isBlank text := by
  cases h with
  | nil => exact nextNot_nil isBlank
  | last _ _ ht =>
    rw [ht]
    exact nextNot_cons.mpr (by decide)
  | cons _ _ _ _ ht =>
    rw [ht]
    exact nextNot_cons.mpr (by decide)

theorem SpellsParameters.respaced {ids : List Ident} (h : SpellsParameters o text ids)
    (hr : Respaced run o text text') (o' : Nat) : ∃ ids', SpellsParameters o' text' ids' ∧
      ids'.map Ident.bare = ids.map Ident.bare := by
  have hsigil : ∀ {id : List Char}, Tight id → Tight ([Scope.variable.sigil] ++ id) := fun hid =>
    List.forall_mem_cons.mpr ⟨by decide, hid⟩
  induction h generalizing text' o' with
  | nil =>
    obtain rfl := hr.nil
    exact ⟨_, .nil, rfl⟩
  | last hid hg ht =>
    rw [ht] at hr
    obtain ⟨_, _, rfl, hr₁, hblanks, -⟩ := hr.gap (hid.ended.append _) hg
    obtain rfl := hr₁.eq_of_tight (hsigil hid.tight)
    exact ⟨_, .last hid hblanks rfl, rfl⟩
  | cons hid hg hg' hrest ht ih =>
    rw [ht] at hr
    obtain ⟨_, _, rfl, hr₁, hbehind⟩ := hr.part hrest.begins
    obtain ⟨_, _, rfl, hr₂, hblanks', -⟩ := hr₁.gap (.concat _ (by decide)) hg'
    obtain ⟨_, rfl, hr₃⟩ := hr₂.token (by decide)
    obtain ⟨_, _, rfl, hr₄, hblanks, -⟩ := hr₃.gap (hid.ended.append _) hg
    obtain rfl := hr₄.eq_of_tight (hsigil hid.tight)
    obtain ⟨_, hrest', hbare⟩ := ih hbehind (o' + byteLength _)
    exact ⟨_, .cons hid hblanks hblanks' hrest' rfl, congrArg (List.cons _) hbare⟩

/-- The run lies in one part of the entry, or in a gap between two. -/
theorem SpellsEntry.respaced {e : Entry} (h : SpellsEntry n o text e)
    (hr : Respaced run o text text') (o' : Nat) : ∃ e', SpellsEntry n o' text' e' ∧
      ((Node.entry e).Untouched run → e'.bare = e.bare) := by
  cases h with
  | entity hid hindex hb hbefore hv hb' htail ht =>
    have hname : Tight (['<'] ++ _) := List.forall_mem_cons.mpr ⟨by decide, hid.tight⟩
    rw [ht] at hr
    obtain ⟨_, _, rfl, hr₁, hclosing⟩ := hr.part htail.begins
    obtain ⟨_, _, rfl, hr₂, hblanks', -⟩ := hr₁.gap (hv.ended.append _) hb'
    obtain ⟨_, _, rfl, hr₃, hvalue⟩ := hr₂.part hv.begins
    obtain ⟨_, _, rfl, hr₄, hblanks, hnil⟩ := hr₃.gap (hindex.ended (hid.ended.append _)) hb
    obtain ⟨_, _, rfl, hr₅, hindexr⟩ := hr₄.part hindex.begins
    obtain rfl := hr₅.eq_of_tight hname
    obtain ⟨_, hindex', hnone, hibare⟩ := hindex.respaced hindexr (o' + byteLength _)
    obtain ⟨_, hv', hvbare⟩ := hv.respaced hvalue (o' + byteLength _)
    obtain ⟨_, htail', htbare⟩ := htail.respaced hclosing (o' + byteLength _)
    refine ⟨_, .entity hid hindex' hblanks (fun he hg => nextNot_congr (hvalue.head?_eq hv.begins)
      (hbefore (hnone he) (hnil hg))) hv' hblanks' htail' rfl, fun hu => ?_⟩
    have hsameIndex := hibare fun e he => hu.row (by simp [Node.row, he])
    have hsameValue := hvbare (hu.row (by simp [Node.row]))
    have hsameTail := htbare fun a ha => hu.keyed (List.mem_map_of_mem ha)
    simp only [Entry.bare, Entity.bare, Ident.bare, hsameIndex, hsameValue, hsameTail]
  | macroDef hid hg₁ hparams hg₂ hg₃ hbody hg₄ hg₅ htail ht =>
    have hname : Tight (['<'] ++ _) := List.forall_mem_cons.mpr ⟨by decide, hid.tight⟩
    rw [ht] at hr
    obtain ⟨_, _, rfl, hr₁, hclosing⟩ := hr.part htail.begins
    obtain ⟨_, _, rfl, hr₂, hb₅, -⟩ := hr₁.gap (.concat _ (by decide)) hg₅
    obtain ⟨_, rfl, hr₃⟩ := hr₂.token (by decide)
    obtain ⟨_, _, rfl, hr₄, hb₄, -⟩ := hr₃.gap (hbody.ended.append _) hg₄
    obtain ⟨_, _, rfl, hr₅, hinner⟩ := hr₄.part hbody.starts.nextNot_isBlank
    obtain ⟨_, _, rfl, hr₆, hb₃, -⟩ := hr₅.gap (.concat _ (by decide)) hg₃
    obtain ⟨_, rfl, hr₇⟩ := hr₆.token (by decide)
    obtain ⟨_, _, rfl, hr₈, hb₂, -⟩ := hr₇.gap (.concat _ (by decide)) hg₂
    obtain ⟨_, rfl, hr₉⟩ := hr₈.token (by decide)
    obtain ⟨_, _, rfl, hr₁₀, hlist⟩ := hr₉.part hparams.begins
    obtain ⟨_, _, rfl, hr₁₁, hb₁, -⟩ := hr₁₀.gap (.concat _ (by decide)) hg₁
    obtain ⟨_, rfl, hr₁₂⟩ := hr₁₁.token (by decide)
    obtain rfl := hr₁₂.eq_of_tight hname
    obtain ⟨_, hparams', hpbare⟩ := hparams.respaced hlist (o' + byteLength _)
    obtain ⟨_, hbody', hbbare⟩ := hbody.respaced hinner (o' + byteLength _)
    obtain ⟨_, htail', htbare⟩ := htail.respaced hclosing (o' + byteLength _)
    refine ⟨_, .macroDef hid hb₁ hparams' hb₂ hb₃ hbody' hb₄ hb₅ htail' rfl, fun hu => ?_⟩
    have hsameBody := hbbare (hu.row (by simp [Node.row]))
    have hsameTail := htbare fun a ha => hu.keyed (List.mem_map_of_mem ha)
    simp only [Entry.bare, Macro.bare, Ident.bare, hpbare, hsameBody, hsameTail]

/-- By induction on the body: in an entry, or in the blanks around it. -/
theorem SpellsBody.respaced {items : List Item} (h : SpellsBody n o text items)
    (hr : Respaced run o text text') (o' : Nat) : ∃ items', SpellsBody n o' text' items' ∧
      ∀ s s', (∀ item ∈ items, item.node.Untouched run) →
        (Resource.entries ⟨items', s'⟩).map Entry.bare =
          (Resource.entries ⟨items, s⟩).map Entry.bare := by
  have hnone : ∀ {o : Nat} {blanks : List Char} {s : Span},
      Resource.entries ⟨gapItems o blanks, s⟩ = [] := by
    intro o blanks s
    rw [← List.append_nil (gapItems _ _), entries_gapItems_append]
    rfl
  induction h generalizing text' o' with
  | done hg => exact ⟨_, .done (hr.of_blanks hg).1, fun s s' _ => by rw [hnone, hnone]⟩
  | entry hg he hrest ht ih =>
    rw [ht] at hr
    obtain ⟨_, _, rfl, hr₁, hbehind⟩ := hr.split (.inl (he.trimmed.ended.append _))
    obtain ⟨c, inner, hc, hnot⟩ := he.trimmed.begins
    obtain ⟨_, _, rfl, hr₂, hentry⟩ := hr₁.part (hc ▸ nextNot_cons.mpr hnot)
    obtain ⟨_, he', hbare⟩ := he.respaced hentry (o' + byteLength _)
    obtain ⟨_, hrest', hbares⟩ := ih hbehind (o' + byteLength _)
    refine ⟨_, .entry (hr₂.of_blanks hg).1 he' hrest' rfl, fun s s' hu => ?_⟩
    obtain ⟨hentryu, hrestu⟩ := List.forall_mem_cons.mp (List.forall_mem_append.mp hu).2
    rw [entries_gapItems_append, entries_gapItems_append]
    exact congrArg₂ List.cons (hbare hentryu) (hbares s s' hrestu)

end Respaced

namespace Resource

variable {limit : Option Nat} {source source' : String} {r : Resource}

/-- Blanks that stand in no string of the tree can be replaced by any others, as long as there are
some. -/
theorem read_respaced {front run run' back : List Char} (h : read limit source = .ok r)
    (hsource : source.toList = front ++ run ++ back) (hrun : Blanks run) (hne : run ≠ [])
    (houtside : ∀ content quote s, r.Contains (.value (.string content quote s)) →
      ¬ (extent (byteLength front) run).Within s)
    (hsource' : source'.toList = front ++ run' ++ back) (hrun' : Blanks run') (hne' : run' ≠ []) :
    ∃ r', read limit source' = .ok r' ∧ r'.entries.map Entry.bare = r.entries.map Entry.bare ∧
      r'.outline false false = r.outline false false := by
  obtain ⟨hbody, -⟩ := ofChars_eq_ok_iff.mp (read_eq_ok_iff_ofChars.mp h)
  have hrespaced : Respaced (extent (byteLength front) run) 0 source.toList source'.toList := by
    rw [hsource, hsource']
    exact .blanks hrun hrun' hne hne' (by rw [Nat.zero_add])
  obtain ⟨items, hitems, hbare⟩ := hbody.respaced hrespaced 0
  have huntouched : ∀ item ∈ r.body, item.node.Untouched (extent (byteLength front) run) :=
    fun item hitem content quote s hr => houtside content quote s ⟨item, hitem, hr⟩
  have hsame := hbare r.span (extent 0 source'.toList) huntouched
  refine ⟨⟨items, extent 0 source'.toList⟩, ?_, hsame, outline_congr hsame⟩
  exact read_eq_ok_iff_ofChars.mpr (ofChars_eq_ok_iff.mpr ⟨hitems, rfl⟩)

/-- The blank behind a string that holds a blank itself. -/
theorem read_respaced_behind_string : ∃ r r', read (some 1) "<a 'b c' >" = .ok r ∧
    read (some 1) "<a 'b c'\n\t>" = .ok r' ∧
    r'.entries.map Entry.bare = r.entries.map Entry.bare ∧
    r'.outline false false = r.outline false false := by
  obtain ⟨r, hr⟩ : ∃ r, read (some 1) "<a 'b c' >" = .ok r := exists_of_isOk (by decide +kernel)
  have hsource : "<a 'b c' >".toList = "<a 'b c'".toList ++ [' '] ++ ['>'] := by decide
  have hsource' : "<a 'b c'\n\t>".toList = "<a 'b c'".toList ++ ['\n', '\t'] ++ ['>'] := by decide
  -- a string that ends behind the blank would end with the blank or with what follows it
  have houtside : ∀ content quote s, r.Contains (.value (.string content quote s)) →
      ¬ (extent (byteLength "<a 'b c'".toList) [' ']).Within s := by
    intro content quote s hcontains hwithin
    obtain ⟨front, part, back, hpart, hspelled⟩ := (row_of_contains hr hcontains).part
    cases hspelled with
    | value hv =>
      cases hv with
      | @string _ _ quote content _ _ hq _ ht =>
        have hstop : 9 ≤ 0 + byteLength front + byteLength part := hwithin.stop
        have hlength := congrArg byteLength hpart
        have htext : "<a 'b c' >".toList = front ++ ([quote] ++ content) ++ [quote] ++ back := by
          rw [hpart, ht]
          simp
        simp only [byteLength_append, show byteLength "<a 'b c' >".toList = 10 by decide] at hlength
        rcases back with _ | ⟨c, _ | ⟨d, back⟩⟩
        · have hlast := congrArg List.getLast? htext
          simp only [List.append_nil, List.getLast?_concat] at hlast
          rcases isQuote_iff.mp hq with rfl | rfl <;> exact absurd hlast (by decide)
        · have hlast := congrArg (fun text => text.dropLast.getLast?) htext
          simp only [List.dropLast_concat, List.getLast?_concat] at hlast
          rcases isQuote_iff.mp hq with rfl | rfl <;> exact absurd hlast (by decide)
        · have hc := c.utf8Size_pos
          have hd := d.utf8Size_pos
          simp only [byteLength_cons] at hlength
          omega
  obtain ⟨r', hr', hsame⟩ := read_respaced hr hsource (by decide) (by decide) houtside hsource'
    (by decide) (by decide)
  exact ⟨r, r', hr, hr', hsame⟩

end Resource

end LocaleText
