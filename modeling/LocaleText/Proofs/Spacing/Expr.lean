import LocaleText.Proofs.Spacing.Basic

/-!
# Values and expressions with other blanks

What spells a value or an expression spells it with other blanks too, under the same nesting and at
every offset. Strings are the only part that the blanks belong to: a tree stays the same if none of
its strings holds the run that is replaced.

* `SpellsValue.respaced`, `SpellsExpr.respaced` and their companions follow the derivation, one case
  for each rule; in each of them the text is cut into the pieces of the rule
* `Member.Kept` relates the members of an object one by one as they are written, so that it does not
  matter whether the run stands in a member that gives way to a later one of the same key
* `Member.bareMembers_of_kept` leads from the members to the object
-/

namespace LocaleText

/-! ### Members -/

/-- A member that differs at most in its value, and there only if a string of it holds the run. -/
structure Member.Kept (run : Span) (m m' : Member) : Prop where
  marked : m'.marked = m.marked
  key : m'.key = m.key
  value : (Node.expr m.value).Untouched run → m'.value.bare = m.value.bare

namespace Member

variable {run : Span} {ms ms' : List Member}

theorem countP_of_kept (h : List.Forall₂ (Kept run) ms ms') :
    ms'.countP marked = ms.countP marked := by
  induction h with
  | nil => rfl
  | cons hm _ ih => rw [List.countP_cons, List.countP_cons, ih, hm.marked]

/-- Marks and keys do not change, and so the default does not. -/
theorem default?_of_kept (h : List.Forall₂ (Kept run) ms ms') : default? ms' = default? ms := by
  induction h with
  | nil => rfl
  | cons hm _ ih =>
    simp only [default?, List.find?_cons, hm.marked] at ih ⊢
    split
    · rw [Option.map_some, Option.map_some, hm.key]
    · exact ih

theorem bareMembers_of_kept (h : List.Forall₂ (Kept run) ms ms')
    (hu : ∀ entry ∈ entries ms, (Node.expr entry.2).Untouched run) :
    bareMembers (entries ms') = bareMembers (entries ms) := by
  have halike : Keyed.Alike (fun e e' => (Node.expr e).Untouched run → e'.bare = e.bare)
      (entries ms) (entries ms') := .foldl_insert (h.imp fun m m' hm => ⟨hm.key, hm.value⟩) .nil
  rw [bareMembers_eq_map, bareMembers_eq_map]
  exact halike.map_eq hu

end Member

/-! ### Derivations -/

section Respaced

variable {run : Span}

mutual

theorem SpellsValue.respaced : ∀ {n o text v}, SpellsValue n o text v → ∀ {text'},
    Respaced run o text text' → ∀ o', ∃ v', SpellsValue n o' text' v' ∧
      ((Node.value v).Untouched run → v'.bare = v.bare)
  | _, o, _, _, @SpellsValue.string _ _ quote content _ hroom hq hc ht, text', hr, o' => by
    have hquote : Tight [quote] :=
      List.forall_mem_singleton.mpr (isBlank_of_isQuote hq)
    rw [ht] at hr
    obtain ⟨_, rfl, hr₁⟩ := hr.token hquote
    obtain ⟨_, content', rfl, hr₂, hcontent⟩ :=
      hr₁.split (.inl (.of_forall (by simp) hquote))
    obtain rfl := hr₂.eq_of_tight hquote
    refine ⟨_, .string hroom hq (hc.respaced hq hcontent) rfl, fun hu => ?_⟩
    have hsame := hr.eq_of_not_within (ht ▸ hu _ _ _ .refl)
    obtain rfl : content' = content := by simpa using hsame
    rfl
  | _, _, _, _, .array hroom hg hitems ht, _, hr, o' => by
    rw [ht] at hr
    obtain ⟨_, rfl, hr₁⟩ := hr.token (by decide)
    obtain ⟨_, _, rfl, hr₂, hrest⟩ := hr₁.part hitems.begins
    obtain ⟨_, _, rfl, hr₃, hg', -⟩ := hr₂.gap (.concat [] (by decide)) hg
    obtain rfl := hr₃.eq_of_tight (by decide)
    obtain ⟨_, hitems', hbare⟩ := hitems.respaced hrest (o' + byteLength _)
    refine ⟨_, .array hroom hg' hitems' rfl, fun hu => ?_⟩
    rw [Value.bare, hbare fun e he => hu.row (List.mem_map_of_mem he),
      Value.bare]
  | _, _, _, _, .object hroom hg hmembers hmarks ht, _, hr, o' => by
    rw [ht] at hr
    obtain ⟨_, rfl, hr₁⟩ := hr.token (by decide)
    obtain ⟨_, _, rfl, hr₂, hrest⟩ := hr₁.part hmembers.begins
    obtain ⟨_, _, rfl, hr₃, hg', -⟩ := hr₂.gap (.concat [] (by decide)) hg
    obtain rfl := hr₃.eq_of_tight (by decide)
    obtain ⟨_, hmembers', hkept⟩ := hmembers.respaced hrest (o' + byteLength _)
    refine ⟨_, .object hroom hg' hmembers' (by rwa [Member.countP_of_kept hkept]) rfl, fun hu => ?_⟩
    rw [Value.bare, Member.default?_of_kept hkept, Member.bareMembers_of_kept hkept, Value.bare]
    exact fun entry hentry => hu.keyed (List.mem_map_of_mem hentry)

/-- By recursion on the derivation. Names and digits hold no blanks. -/
theorem SpellsOperand.respaced : ∀ {n o text e ending}, SpellsOperand n o text e ending → ∀ {text'},
    Respaced run o text text' → ∀ o', ∃ e', SpellsOperand n o' text' e' ending ∧
      ((Node.expr e).Untouched run → e'.bare = e.bare)
  | _, _, _, _, _, .integer hd, _, hr, o' => by
    have htight : Tight _ := fun c hc => isBlank_of_isWordChar (isWordChar_of_isDigit (hd.2.1 c hc))
    obtain rfl := hr.eq_of_tight htight
    exact ⟨_, .integer hd, fun _ => rfl⟩
  | _, _, _, _, _, .ident hname hd, _, hr, o' => by
    obtain rfl := hr.eq_of_tight hname.tight
    exact ⟨_, .ident hname hd, fun _ => rfl⟩
  | _, _, _, _, _, @SpellsOperand.reference _ _ scope _ _ _ _ hid ht, _, hr, o' => by
    have hsigil : isBlank scope.sigil = false := by cases scope <;> decide
    rw [ht] at hr
    obtain rfl := hr.eq_of_tight (List.forall_mem_cons.mpr ⟨hsigil, hid.tight⟩)
    exact ⟨_, .reference hid rfl, fun _ => rfl⟩
  | _, _, _, _, _, .this, _, hr, o' => by
    obtain rfl := hr.eq_of_tight (by decide)
    exact ⟨_, .this, fun _ => rfl⟩
  | _, _, _, _, _, .value hv, _, hr, o' => by
    obtain ⟨_, hv', hbare⟩ := hv.respaced hr o'
    refine ⟨_, .value hv', fun hu => ?_⟩
    rw [Expr.bare, hbare (hu.row (by simp [Node.row])), Expr.bare]
  | _, _, _, _, _, .parenthesis hg he hg' ht, _, hr, o' => by
    rw [ht] at hr
    obtain ⟨_, rfl, hr₁⟩ := hr.token (by decide)
    obtain ⟨_, _, rfl, hr₂, hblanks', -⟩ := hr₁.gap (he.ended.append _) hg'
    obtain ⟨_, _, rfl, hr₃, hinner⟩ := hr₂.part he.starts.nextNot_isBlank
    obtain ⟨_, _, rfl, hr₄, hblanks, -⟩ := hr₃.gap (.concat [] (by decide)) hg
    obtain rfl := hr₄.eq_of_tight (by decide)
    obtain ⟨_, he', hbare⟩ := he.respaced hinner (o' + byteLength _)
    refine ⟨_, .parenthesis hblanks he' hblanks' rfl, fun hu => ?_⟩
    rw [Expr.bare, hbare (hu.row (by simp [Node.row])), Expr.bare]
  | _, _, _, _, _, .call hname hd hg hargs ht, _, hr, o' => by
    rw [ht] at hr
    obtain ⟨_, rfl, hr₁⟩ := hr.token (by decide)
    obtain ⟨_, _, rfl, hr₂, hrest⟩ := hr₁.part hargs.begins
    obtain ⟨_, _, rfl, hr₃, hblanks, -⟩ := hr₂.gap (.concat _ (by decide)) hg
    obtain ⟨_, rfl, hr₄⟩ := hr₃.token (by decide)
    obtain rfl := (hr₄.eq_of_tight hname.tight).symm
    obtain ⟨_, hargs', hbare⟩ := hargs.respaced hrest (o' + byteLength _)
    refine ⟨_, .call hname hd hblanks hargs' rfl, fun hu => ?_⟩
    rw [Expr.bare, hbare fun e he => hu.row (by simp [Node.row, he]), Expr.bare]
    rfl
  | _, _, _, _, _, @SpellsOperand.select _ _ selection _ _ _ _ _ _ _ hname hd hg hkey hg' ht, _, hr,
      o' => by
    have hopener : Tight selection.opener := by cases selection <;> decide
    have hended : Ended selection.opener := by
      cases selection <;> exact .of_forall (by simp [Selection.opener]) hopener
    rw [ht] at hr
    obtain ⟨_, rfl, hr₁⟩ := hr.token (by decide)
    obtain ⟨_, _, rfl, hr₂, hblanks', -⟩ := hr₁.gap (hkey.ended.append _) hg'
    obtain ⟨_, _, rfl, hr₃, hinner⟩ := hr₂.part hkey.starts.nextNot_isBlank
    obtain ⟨_, _, rfl, hr₄, hblanks, -⟩ := hr₃.gap (hended.append _) hg
    obtain ⟨_, rfl, hr₅⟩ := hr₄.token hopener
    obtain rfl := (hr₅.eq_of_tight hname.tight).symm
    obtain ⟨_, hkey', hbare⟩ := hkey.respaced hinner (o' + byteLength _)
    refine ⟨_, .select hname hd hblanks hkey' hblanks' rfl, fun hu => ?_⟩
    rw [Expr.bare, hbare (hu.row (by simp [Node.row])), Expr.bare]
    rfl

theorem SpellsOperation.respaced : ∀ {rank n o text e ending},
    SpellsOperation rank n o text e ending → ∀ {text'}, Respaced run o text text' → ∀ o', ∃ e',
      SpellsOperation rank n o' text' e' ending ∧
        ((Node.expr e).Untouched run → e'.bare = e.bare)
  | _, _, _, _, _, _, .operand h, _, hr, o' => by
    obtain ⟨_, h', hbare⟩ := h.respaced hr o'
    exact ⟨_, .operand h', hbare⟩
  | _, _, _, _, _, _, .looser h, _, hr, o' => by
    obtain ⟨_, h', hbare⟩ := h.respaced hr o'
    exact ⟨_, .looser h', hbare⟩
  | _, _, _, _, _, _, @SpellsOperation.unary _ _ op _ _ _ _ _ hroom hg harg ht, _, hr, o' => by
    have hop : Tight [op.token] := by cases op <;> decide
    rw [ht] at hr
    obtain ⟨_, _, rfl, hr₁, hrest⟩ := hr.part harg.starts.nextNot_isBlank
    obtain ⟨_, _, rfl, hr₂, hblanks, -⟩ := hr₁.gap (.of_forall (by simp) hop) hg
    obtain rfl := hr₂.eq_of_tight hop
    obtain ⟨_, harg', hbare⟩ := harg.respaced hrest (o' + byteLength _)
    refine ⟨_, .unary hroom hblanks harg' rfl, fun hu => ?_⟩
    rw [Expr.bare, hbare (hu.row (by simp [Node.row])), Expr.bare]
  | _, _, _, _, _, _, @SpellsOperation.binary _ _ _ op _ _ _ _ _ _ _ _ _ hrank hl hg hg' hright ht,
      _, hr, o' => by
    have hop : Tight op.token := by cases op <;> decide
    have hended : Ended op.token := by cases op <;> exact .of_forall (by simp [BinaryOp.token]) hop
    rw [ht] at hr
    obtain ⟨_, _, rfl, hr₁, hbehind⟩ := hr.part hright.starts.nextNot_isBlank
    obtain ⟨_, _, rfl, hr₂, hblanks', -⟩ := hr₁.gap (hended.append _) hg'
    obtain ⟨_, rfl, hr₃⟩ := hr₂.token hop
    obtain ⟨_, _, rfl, hr₄, hblanks, -⟩ := hr₃.gap hl.ended hg
    obtain ⟨_, hl', hlbare⟩ := hl.respaced hr₄ o'
    obtain ⟨_, hright', hrbare⟩ := hright.respaced hbehind (o' + byteLength _)
    refine ⟨_, .binary hrank hl' hblanks hblanks' hright' rfl, fun hu => ?_⟩
    rw [Expr.bare, hlbare (hu.row (by simp [Node.row])),
      hrbare (hu.row (by simp [Node.row])), Expr.bare]
  | _, _, _, _, _, _, .choice htest hg₁ hg₂ hc hg₃ hg₄ ha ht, _, hr, o' => by
    rw [ht] at hr
    obtain ⟨_, _, rfl, hr₁, halternate⟩ := hr.part ha.starts.nextNot_isBlank
    obtain ⟨_, _, rfl, hr₂, hb₄, -⟩ := hr₁.gap (.concat _ (by decide)) hg₄
    obtain ⟨_, rfl, hr₃⟩ := hr₂.token (by decide)
    obtain ⟨_, _, rfl, hr₄, hb₃, -⟩ := hr₃.gap (hc.ended.append _) hg₃
    obtain ⟨_, _, rfl, hr₅, hconsequent⟩ := hr₄.part hc.starts.nextNot_isBlank
    obtain ⟨_, _, rfl, hr₆, hb₂, -⟩ := hr₅.gap (.concat _ (by decide)) hg₂
    obtain ⟨_, rfl, hr₇⟩ := hr₆.token (by decide)
    obtain ⟨_, _, rfl, hr₈, hb₁, -⟩ := hr₇.gap htest.ended hg₁
    obtain ⟨_, htest', htbare⟩ := htest.respaced hr₈ o'
    obtain ⟨_, hc', hcbare⟩ := hc.respaced hconsequent (o' + byteLength _)
    obtain ⟨_, ha', habare⟩ := ha.respaced halternate (o' + byteLength _)
    refine ⟨_, .choice htest' hb₁ hb₂ hc' hb₃ hb₄ ha' rfl, fun hu => ?_⟩
    rw [Expr.bare, htbare (hu.row (by simp [Node.row])),
      hcbare (hu.row (by simp [Node.row])),
      habare (hu.row (by simp [Node.row])), Expr.bare]

theorem SpellsExpr.respaced : ∀ {n o text e ending}, SpellsExpr n o text e ending → ∀ {text'},
    Respaced run o text text' → ∀ o', ∃ e', SpellsExpr n o' text' e' ending ∧
      ((Node.expr e).Untouched run → e'.bare = e.bare)
  | _, _, _, _, _, .mk hroom h, _, hr, o' => by
    obtain ⟨_, h', hbare⟩ := h.respaced hr o'
    exact ⟨_, .mk hroom h', hbare⟩

theorem SpellsItems.respaced : ∀ {n o text es}, SpellsItems n o text es → ∀ {text'},
    Respaced run o text text' → ∀ o', ∃ es', SpellsItems n o' text' es' ∧
      ((∀ e ∈ es, (Node.expr e).Untouched run) → bareItems es' = bareItems es)
  | _, _, _, _, .nil, _, hr, o' => by
    obtain rfl := hr.nil
    exact ⟨_, .nil, fun _ => rfl⟩
  | _, _, _, _, .cons he hg hseparator hrest ht, _, hr, o' => by
    rw [ht] at hr
    obtain ⟨_, _, rfl, hr₁, hbehind⟩ := hr.part hrest.begins
    obtain ⟨_, _, rfl, hr₂, hseparator'⟩ := hseparator.respaced hr₁
    obtain ⟨_, _, rfl, hr₃, hblanks, hnil⟩ := hr₂.gap he.ended hg
    obtain ⟨_, he', hbare⟩ := he.respaced hr₃ o'
    obtain ⟨_, hrest', hbares⟩ := hrest.respaced hbehind (o' + byteLength _)
    have hseparated := hseparator' _ _ hnil (hbehind.head?_eq hrest.begins)
    refine ⟨_, .cons he' hblanks hseparated hrest' rfl, fun hu => ?_⟩
    obtain ⟨hitem, hitems⟩ := List.forall_mem_cons.mp hu
    rw [bareItems, hbare hitem, hbares hitems, bareItems]

/-- By recursion on the members: the run lies in one of them, or in a gap. -/
theorem SpellsMembers.respaced : ∀ {n o text ms}, SpellsMembers n o text ms → ∀ {text'},
    Respaced run o text text' → ∀ o', ∃ ms', SpellsMembers n o' text' ms' ∧
      List.Forall₂ (Member.Kept run) ms ms'
  | _, _, _, _, .nil, _, hr, o' => by
    obtain rfl := hr.nil
    exact ⟨_, .nil, .nil⟩
  | _, _, _, _, @SpellsMembers.cons _ _ m _ _ _ _ _ _ _ _ hkey he hg hseparator hrest ht, _, hr,
      o' => by
    have hmark : Tight m.mark := by
      rw [Member.mark]
      split <;> decide
    rw [ht] at hr
    obtain ⟨_, _, rfl, hr₁, hbehind⟩ := hr.part hrest.begins
    obtain ⟨_, _, rfl, hr₂, hseparator'⟩ := hseparator.respaced hr₁
    obtain ⟨_, _, rfl, hr₃, hblanks, hnil⟩ := hr₂.gap (he.ended.append _) hg
    obtain ⟨_, _, rfl, hr₄, hitem⟩ := hr₃.part he.starts.nextNot_isBlank
    obtain ⟨_, _, rfl, hr₅, hkeyr⟩ := hr₄.part hkey.begins
    obtain rfl := hr₅.eq_of_tight hmark
    obtain ⟨e', he', hbare⟩ := he.respaced hitem (o' + byteLength (m.mark ++ _))
    obtain ⟨_, hrest', hkept⟩ := hrest.respaced hbehind (o' + byteLength _)
    have hseparated := hseparator' _ _ hnil (hbehind.head?_eq hrest.begins)
    exact ⟨⟨m.marked, m.key, e'⟩ :: _,
      .cons (hkey.respaced hkeyr) he' hblanks hseparated hrest' rfl, .cons ⟨rfl, rfl, hbare⟩ hkept⟩

theorem SpellsArguments.respaced : ∀ {n o text es}, SpellsArguments n o text es → ∀ {text'},
    Respaced run o text text' → ∀ o', ∃ es', SpellsArguments n o' text' es' ∧
      ((∀ e ∈ es, (Node.expr e).Untouched run) → bareItems es' = bareItems es)
  | _, _, _, _, .none, _, hr, o' => by
    obtain rfl := hr.nil
    exact ⟨_, .none, fun _ => rfl⟩
  | _, _, _, _, .some h, _, hr, o' => by
    obtain ⟨_, h', hbare⟩ := h.respaced hr o'
    exact ⟨_, .some h', hbare⟩

theorem SpellsSequence.respaced : ∀ {n o text es}, SpellsSequence n o text es → ∀ {text'},
    Respaced run o text text' → ∀ o', ∃ es', SpellsSequence n o' text' es' ∧
      ((∀ e ∈ es, (Node.expr e).Untouched run) → bareItems es' = bareItems es)
  | _, _, _, _, .last he hg ht, _, hr, o' => by
    rw [ht] at hr
    obtain ⟨_, _, rfl, hr₁, hblanks, -⟩ := hr.gap he.ended hg
    obtain ⟨_, he', hbare⟩ := he.respaced hr₁ o'
    refine ⟨_, .last he' hblanks rfl, fun hu => ?_⟩
    rw [bareItems, hbare (hu _ (List.mem_cons_self ..)), bareItems, bareItems, bareItems]
  | _, _, _, _, .cons he hg hg' hrest ht, _, hr, o' => by
    rw [ht] at hr
    obtain ⟨_, _, rfl, hr₁, hbehind⟩ := hr.part hrest.starts.nextNot_isBlank
    obtain ⟨_, _, rfl, hr₂, hblanks', -⟩ := hr₁.gap (.concat _ (by decide)) hg'
    obtain ⟨_, rfl, hr₃⟩ := hr₂.token (by decide)
    obtain ⟨_, _, rfl, hr₄, hblanks, -⟩ := hr₃.gap he.ended hg
    obtain ⟨_, he', hbare⟩ := he.respaced hr₄ o'
    obtain ⟨_, hrest', hbares⟩ := hrest.respaced hbehind (o' + byteLength _)
    refine ⟨_, .cons he' hblanks hblanks' hrest' rfl, fun hu => ?_⟩
    obtain ⟨hitem, hitems⟩ := List.forall_mem_cons.mp hu
    rw [bareItems, hbare hitem, hbares hitems, bareItems]

end

end Respaced

end LocaleText
