import LocaleText.Proofs.Concatenation
import LocaleText.Proofs.Node.Basic

/-!
# Nodes read alone

What stands around an entry or an expression makes no difference to how it is read: its own text,
put into a source of its own, is read as the same tree, moved to its new place. An expression needs
something around it to be read at all, and is put into an array.

* `SpellsOperation.unlimited` and its companions: what is spelled within a limit is spelled without
  one
* `SpellsEntry.alone` and `SpellsExpr.alone` move a tree to the front of a source
* `Resource.Detachable` is the property of a resource
* `Resource.detachable_of_read` holds it of what is read, at every node of the tree
-/

namespace LocaleText

/-! ### Without a limit -/

/-- Without a limit there is room at every level. -/
theorem Nesting.hasRoom_of_none {n : Nesting} (hn : n.limit = none) : n.HasRoom :=
  hasRoom_iff.mpr (allows_of_none hn)

mutual

theorem SpellsValue.unlimited : ∀ {n n' o text v}, SpellsValue n o text v → n'.limit = none →
    SpellsValue n' o text v
  | _, _, _, _, _, .string _ hq hc ht, hn => .string (Nesting.hasRoom_of_none hn) hq hc ht
  | _, _, _, _, _, .array _ hg hitems ht, hn =>
    .array (Nesting.hasRoom_of_none hn) hg (hitems.unlimited hn) ht
  | _, _, _, _, _, .object _ hg hmembers hc ht, hn =>
    .object (Nesting.hasRoom_of_none hn) hg (hmembers.unlimited hn) hc ht

theorem SpellsOperand.unlimited : ∀ {n n' o text e ending}, SpellsOperand n o text e ending →
    n'.limit = none → SpellsOperand n' o text e ending
  | _, _, _, _, _, _, .integer hd, _ => .integer hd
  | _, _, _, _, _, _, .ident hname hd, _ => .ident hname hd
  | _, _, _, _, _, _, .reference hid ht, _ => .reference hid ht
  | _, _, _, _, _, _, .this, _ => .this
  | _, _, _, _, _, _, .value hv, hn => .value (hv.unlimited hn)
  | _, _, _, _, _, _, .parenthesis hg he hg' ht, hn => .parenthesis hg (he.unlimited hn) hg' ht
  | _, _, _, _, _, _, .call hname hd hg hargs ht, hn => .call hname hd hg (hargs.unlimited hn) ht
  | _, _, _, _, _, _, .select hname hd hg hkey hg' ht, hn =>
    .select hname hd hg (hkey.unlimited hn) hg' ht

theorem SpellsOperation.unlimited : ∀ {rank n n' o text e ending},
    SpellsOperation rank n o text e ending → n'.limit = none →
    SpellsOperation rank n' o text e ending
  | _, _, _, _, _, _, _, .operand h, hn => .operand (h.unlimited hn)
  | _, _, _, _, _, _, _, .looser h, hn => .looser (h.unlimited hn)
  | _, _, _, _, _, _, _, .unary _ hg harg ht, hn =>
    .unary (Nesting.hasRoom_of_none hn) hg (harg.unlimited hn) ht
  | _, _, _, _, _, _, _, .binary hr hl hg hg' hright ht, hn =>
    .binary hr (hl.unlimited hn) hg hg' (hright.unlimited hn) ht
  | _, _, _, _, _, _, _, .choice htest hg₁ hg₂ hc hg₃ hg₄ ha ht, hn =>
    .choice (htest.unlimited hn) hg₁ hg₂ (hc.unlimited hn) hg₃ hg₄ (ha.unlimited hn) ht

/-- By recursion on the derivation, which does not change but for the levels. -/
theorem SpellsExpr.unlimited : ∀ {n n' o text e ending}, SpellsExpr n o text e ending →
    n'.limit = none → SpellsExpr n' o text e ending
  | _, _, _, _, _, _, .mk _ h, hn => .mk (Nesting.hasRoom_of_none hn) (h.unlimited hn)

theorem SpellsItems.unlimited : ∀ {n n' o text es}, SpellsItems n o text es → n'.limit = none →
    SpellsItems n' o text es
  | _, _, _, _, _, .nil, _ => .nil
  | _, _, _, _, _, .cons he hg hs hrest ht, hn =>
    .cons (he.unlimited hn) hg hs (hrest.unlimited hn) ht

theorem SpellsMembers.unlimited : ∀ {n n' o text ms}, SpellsMembers n o text ms →
    n'.limit = none → SpellsMembers n' o text ms
  | _, _, _, _, _, .nil, _ => .nil
  | _, _, _, _, _, .cons hkey he hg hs hrest ht, hn =>
    .cons hkey (he.unlimited hn) hg hs (hrest.unlimited hn) ht

theorem SpellsArguments.unlimited : ∀ {n n' o text es}, SpellsArguments n o text es →
    n'.limit = none → SpellsArguments n' o text es
  | _, _, _, _, _, .none, _ => .none
  | _, _, _, _, _, .some h, hn => .some (h.unlimited hn)

theorem SpellsSequence.unlimited : ∀ {n n' o text es}, SpellsSequence n o text es →
    n'.limit = none → SpellsSequence n' o text es
  | _, _, _, _, _, .last he hg ht, hn => .last (he.unlimited hn) hg ht
  | _, _, _, _, _, .cons he hg hg' hrest ht, hn =>
    .cons (he.unlimited hn) hg hg' (hrest.unlimited hn) ht

end

theorem Node.Spelled.expr_unlimited {o : Nat} {text : List Char} {e : Expr} (depth : Nat)
    (h : Node.Spelled o text (.expr e)) : ∃ ending, SpellsExpr ⟨none, depth⟩ o text e ending := by
  cases h with
  | expr he => exact ⟨_, .mk rfl (he.unlimited rfl)⟩

/-! ### At the front of a source -/

section Alone

variable {n : Nesting} {o : Nat} {text : List Char} {e : Expr} {ending : Ending}

/-- What is read further on in a source is read at its front. An error there would go along with the
text as well. -/
theorem Reader.Carries.front {α β : Type} {x : Reader α} {y : Reader β} {f : α → β} {b k : Nat}
    {c : β} {l : Input} (h : Reader.Carries b k f x y ⟨0, text⟩) (hlen : text.length < b)
    (hy : y ⟨0 + k, text⟩ = .ok c l) :
    ∃ a m, x ⟨0, text⟩ = .ok a m ∧ c = f a ∧ l = ⟨m.offset + k, m.rest⟩ := by
  cases hx : x ⟨0, text⟩ with
  | ok a m =>
    obtain ⟨front, ht, hsame⟩ := h.ok hx
    have hsplit : text = front ++ m.rest := ht.rest
    have hthere := hsame m.rest (.refl _) (by rwa [← hsplit])
    rw [← hsplit] at hthere
    obtain ⟨hc, hl⟩ := Reader.ok_inj.mp (hy.symm.trans hthere)
    exact ⟨a, m, rfl, hc, hl⟩
  | error e m =>
    obtain ⟨front, rest, harises, hsame, -⟩ := h.error hx
    have hsplit : text = front ++ rest := harises.split
    obtain ⟨m', hthere, -⟩ := hsame rest rfl (by rwa [← hsplit])
    rw [← hsplit] at hthere
    exact absurd (hy.symm.trans hthere) (by simp)

/-- The tree of an entry, at the front of a source. -/
theorem SpellsEntry.alone {e : Entry} (h : SpellsEntry n o text e) :
    ∃ e₀, e = e₀.shift o ∧ SpellsEntry n 0 text e₀ := by
  have hcarries : Reader.Carries (text.length + 1) o (Entry.shift o)
      (Reader.entry (text.length + 1) n) (Reader.entry (text.length + 1) n) ⟨0, text⟩ :=
    .entry (Nat.lt_succ_self _)
  have hrun := h.run
  rw [← Nat.zero_add o] at hrun
  obtain ⟨e₀, m, hfront, he, hm⟩ := hcarries.front (Nat.lt_succ_self _) hrun
  have hrest : [] = m.rest := congrArg Input.rest hm
  exact ⟨e₀, he, .of_run hfront hrest.symm⟩

/-- An expression is read from its own text, -/
theorem SpellsExpr.run (h : SpellsExpr n o text e ending) :
    Reader.expression (text.length + 1) n ⟨o, text⟩ = .ok e ⟨o + byteLength text, []⟩ := by
  have htakes : (⟨o, text⟩ : Input).Takes (text ++ []) ⟨o + byteLength text, []⟩ :=
    ⟨by rw [List.append_nil, List.append_nil], by rw [List.append_nil]⟩
  have hreads : ReadsExpr n ⟨o, text⟩ e ⟨o + byteLength text, []⟩ :=
    ⟨text, [], ending, h, htakes, by simp [Blanks], nextNot_nil _, fun _ => nextNot_nil _, .nil 0⟩
  exact (Reader.exact_expression (text.length + 1) n ⟨o, text⟩ e _ (Nat.lt_succ_self _)).mpr hreads

/-- and what is read from a text is spelled by all of it, if it ends where the text does. -/
theorem SpellsExpr.of_run {l : Input}
    (h : Reader.expression (text.length + 1) n ⟨o, text⟩ = .ok e l) (hl : l.rest = [])
    (hstop : e.span.stop = o + byteLength text) : ∃ ending, SpellsExpr n o text e ending := by
  obtain ⟨part, gap, ending, hspells, hleaves⟩ :=
    (Reader.exact_expression (text.length + 1) n ⟨o, text⟩ e l (Nat.lt_succ_self _)).mp h
  have hsplit : text = part ++ gap := by simpa [hl] using hleaves.takes.rest
  have hlen : byteLength gap = 0 := by
    have hpart : e.span.stop = o + byteLength part := congrArg Span.stop hspells.span
    rw [hsplit, byteLength_append] at hstop
    omega
  cases gap with
  | nil =>
    rw [List.append_nil] at hsplit
    exact ⟨ending, hsplit ▸ hspells⟩
  | cons c cs =>
    have hpos := byteLength_pos (List.cons_ne_nil c cs)
    omega

/-- The tree of an expression, at the front of a source. -/
theorem SpellsExpr.alone (h : SpellsExpr n o text e ending) :
    ∃ e₀ ending₀, e = e₀.shift o ∧ SpellsExpr n 0 text e₀ ending₀ := by
  have hcarries : Reader.Carries (text.length + 1) o (Expr.shift o)
      (Reader.expression (text.length + 1) n) (Reader.expression (text.length + 1) n) ⟨0, text⟩ :=
    .expression _ _ (Nat.lt_succ_self _)
  have hrun := h.run
  rw [← Nat.zero_add o] at hrun
  obtain ⟨e₀, m, hfront, he, hm⟩ := hcarries.front (Nat.lt_succ_self _) hrun
  have hrest : [] = m.rest := congrArg Input.rest hm
  have hstop := congrArg Span.stop h.span
  simp only [he, Expr.span_shift, Span.shift, extent] at hstop
  obtain ⟨ending₀, hspells⟩ := SpellsExpr.of_run hfront hrest.symm (by omega)
  exact ⟨e₀, ending₀, he, hspells⟩

/-- The tree of an expression, further on in a source. -/
theorem SpellsExpr.shift (k : Nat) (h : SpellsExpr n o text e ending) :
    ∃ ending', SpellsExpr n (o + k) text (e.shift k) ending' := by
  have hcarries : Reader.Carries (text.length + 1) k (Expr.shift k)
      (Reader.expression (text.length + 1) n) (Reader.expression (text.length + 1) n) ⟨o, text⟩ :=
    .expression _ _ (Nat.lt_succ_self _)
  refine SpellsExpr.of_run (hcarries.whole (Nat.lt_succ_self _) h.run rfl) rfl ?_
  rw [Expr.span_shift, h.span]
  simp only [Span.shift, extent, Nat.add_right_comm]

end Alone

/-! ### Sources of their own -/

def Span.cut (s : Span) (source : String) : String := String.ofList (s.slice source.toList)

namespace Resource

variable {limit : Option Nat} {text : List Char} {source : String} {r : Resource}

/-- A source that is one entry. -/
theorem ofChars_of_entry {e : Entry} (h : SpellsEntry (.outermost limit) 0 text e) :
    ofChars limit text = .ok ⟨[.entry e], extent 0 text⟩ := by
  have hblanks : Blanks [] := by simp [Blanks]
  have htext : text = [] ++ text ++ [] := by simp
  have hbody : SpellsBody (.outermost limit) 0 text (gapItems 0 [] ++ .entry e :: gapItems _ []) :=
    .entry hblanks h (.done hblanks) htext
  exact ofChars_eq_ok_iff.mpr ⟨hbody, rfl⟩

/-- A source that is one entity, with an array of one expression. -/
theorem ofChars_of_item {e : Expr} {ending : Ending} (h : SpellsExpr ⟨none, 1⟩ 4 text e ending) :
    ∃ d s s', ofChars none ("<x [".toList ++ text ++ "]>".toList) = .ok ⟨[.entry (.entity d)], s⟩ ∧
      d.value = .array [e] s' := by
  have hblanks : Blanks [] := by simp [Blanks]
  have hspace : Blanks [' '] := by decide
  have hname : IsName ['x'] := by decide +kernel
  have hitems : SpellsItems ⟨none, 1⟩ 4 text [e] :=
    .cons h hblanks (.omitted ⟨fun _ => nextNot_nil _, nextNot_nil _⟩) .nil (by simp)
  have hvalue : SpellsValue ⟨none, 0⟩ 3 (['['] ++ [] ++ text ++ [']'])
      (.array [e] (extent 3 (['['] ++ [] ++ text ++ [']']))) :=
    .array rfl hblanks hitems rfl
  have hentity := SpellsEntry.entity (.bare hname) .none hspace (by simp) hvalue hblanks .bare
    (show "<x [".toList ++ text ++ "]>".toList = _ by simp)
  exact ⟨_, _, _, ofChars_of_entry hentity, rfl⟩

/-- The nodes of a resource can be read alone from their own texts, as the trees that they are in the
source, moved by the distance between the two places. -/
structure Detachable (limit : Option Nat) (source : String) (r : Resource) : Prop where
  /-- Every entry, under the same limit. -/
  entry : ∀ e, .entry e ∈ r.body → ∃ e₀ : Entry, e = e₀.shift e.span.start ∧
    read limit (e.span.cut source) = .ok ⟨[.entry e₀], extent 0 (e.span.cut source).toList⟩
  /-- Every expression, as the item of an array and without a limit. -/
  expr : ∀ e, r.Contains (.expr e) → ∃ e₀ : Expr, e = e₀.shift e.span.start ∧ ∃ d s s',
    read none ("<x [" ++ e.span.cut source ++ "]>") = .ok ⟨[.entry (.entity d)], s⟩ ∧
      d.value = .array [e₀.shift 4] s'

/-- What stands around a node of a source that is read makes no difference to how it is read. -/
theorem detachable_of_read (h : read limit source = .ok r) : r.Detachable limit source := by
  obtain ⟨hbody, -⟩ := ofChars_eq_ok_iff.mp (read_eq_ok_iff_ofChars.mp h)
  constructor
  · intro e he
    have hsource : source.toList = [] ++ source.toList ++ [] := by simp
    obtain ⟨front, part, back, hpart, hspells⟩ := hbody.spells_of_mem _ _ hsource rfl he
    obtain ⟨e₀, heq, halone⟩ := hspells.alone
    have hcut : (e.span.cut source).toList = part := by
      rw [Span.cut, String.toList_ofList, hspells.span, slice_extent front back hpart rfl]
    refine ⟨e₀, by rwa [hspells.span], ?_⟩
    rw [read_eq_ok_iff_ofChars, hcut]
    exact ofChars_of_entry halone
  · intro e he
    obtain ⟨front, part, back, hpart, hspelled⟩ := (row_of_contains h he).part
    rw [Nat.zero_add] at hspelled
    have hspan : e.span = extent (byteLength front) part := hspelled.span
    have hcut : (e.span.cut source).toList = part := by
      rw [Span.cut, String.toList_ofList, hspan, slice_extent front back hpart rfl]
    obtain ⟨_, hexpr⟩ := hspelled.expr_unlimited 1
    obtain ⟨e₀, _, heq, halone⟩ := hexpr.alone
    obtain ⟨_, hitem⟩ := halone.shift 4
    obtain ⟨d, s, s', hd, hvalue⟩ := ofChars_of_item hitem
    refine ⟨e₀, by rwa [hspan], d, s, s', ?_, hvalue⟩
    rw [read_eq_ok_iff_ofChars, String.toList_append, String.toList_append, hcut]
    exact hd

/-- An entity, and a macro with operators and a call. -/
theorem detachable_two_entries : ∃ r,
    read (some 9) "<é 'b'> <f($x) \x7b g(1, $x) ? -2 : ~ \x7d>" = .ok r ∧
      r.Detachable (some 9) "<é 'b'> <f($x) \x7b g(1, $x) ? -2 : ~ \x7d>" := by
  obtain ⟨r, hr⟩ : ∃ r, read (some 9) "<é 'b'> <f($x) \x7b g(1, $x) ? -2 : ~ \x7d>" = .ok r :=
    exists_of_isOk (by decide +kernel)
  exact ⟨r, hr, detachable_of_read hr⟩

end Resource

end LocaleText
