import LocaleText.Proofs.Layout.WellFormed
import LocaleText.Proofs.Writing.Row

/-!
# The outline of a tree tells the tree

How deep the rows of an outline are tells which node holds which, and their labels tell the nodes,
so that a tree can be found again in its rows, up to spans and recorded blanks.

* `labelForm` is the form that is shown with a label, and so the form of the second of two trees that
  begin the same rows
* `Expr.rows_unique`, `Value.rows_unique` and their companions are the induction on the first of two
  trees whose rows begin the same rows; `Outdented` says that what follows a node is not below it
* `Entry.rows_unique` is the same for entries, `Entry.rows_bare` the converse
* `Resource.outline_eq_iff` is the result for the outlines of what is read
-/

namespace LocaleText

/-! ### Labels -/

def firstWord (label : String) : String := String.ofList (label.toList.takeWhile (· != ' '))

def Value.labelWords : List (List String) := [["String"], ["Array"], ["Object"]]

/-- The words that the rows of expressions begin with, by the form of the expression. -/
def Expr.labelWords : List (List String) :=
  [["Integer"], ["Ident"], ["Variable", "Global"], ["This"], ["String", "Array", "Object"],
   ["Paren"], ["Call"], ["Attribute", "Member"], ["Unary"], ["Binary", "Logical"], ["Conditional"]]

/-- The place of the form that is shown with a label. -/
def labelForm (forms : List (List String)) (label : String) : Nat :=
  forms.findIdx fun words => words.contains (firstWord label)

section Labels

variable {lead rest : String}

theorem firstWord_append (h : ' ' ∈ lead.toList) : firstWord (lead ++ rest) = firstWord lead := by
  obtain ⟨word, behind, hlead⟩ := List.append_of_mem h
  rw [firstWord, firstWord, String.toList_append, hlead]
  simp [List.takeWhile_append]

/-- The form is told by the first word, whatever stands behind it. -/
theorem labelForm_append {forms : List (List String)} (h : ' ' ∈ lead.toList) :
    labelForm forms (lead ++ rest) = labelForm forms lead := by
  rw [labelForm, firstWord_append h, labelForm]

theorem Value.exists_row (v : Value) (depth : Nat) : ∃ label rows,
    (v.rows depth).map Row.bare = ⟨depth, label, none⟩ :: rows ∧
      labelForm Value.labelWords label = v.ctorIdx ∧ labelForm Expr.labelWords label = 4 := by
  cases v with
  | string content quote s =>
    refine ⟨_, _, rfl, ?_, ?_⟩ <;>
      rw [String.append_assoc, String.append_assoc, labelForm_append (by decide)] <;> rfl
  | array items s => exact ⟨"Array", _, rfl, rfl, rfl⟩
  | object members default s => exact ⟨"Object", _, rfl, rfl, rfl⟩

/-- The first row of an expression tells its form. -/
theorem Expr.exists_row (e : Expr) (depth : Nat) : ∃ label rows,
    (e.rows depth).map Row.bare = ⟨depth, label, none⟩ :: rows ∧
      labelForm Expr.labelWords label = e.ctorIdx := by
  cases e with
  | integer n s => exact ⟨_, _, rfl, (labelForm_append (by decide)).trans rfl⟩
  | ident id => exact ⟨_, _, rfl, (labelForm_append (by decide)).trans rfl⟩
  | reference scope id s =>
    cases scope <;> exact ⟨_, _, rfl, (labelForm_append (by decide)).trans rfl⟩
  | this s => exact ⟨"This", _, rfl, rfl⟩
  | value v =>
    obtain ⟨label, rows, hv, -, hform⟩ := v.exists_row depth
    exact ⟨label, rows, hv, hform⟩
  | parenthesis inner s => exact ⟨"Paren", _, rfl, rfl⟩
  | call callee args s => exact ⟨_, _, rfl, (labelForm_append (by decide)).trans rfl⟩
  | select selection base key s =>
    cases selection <;> exact ⟨_, _, rfl, (labelForm_append (by decide)).trans rfl⟩
  | unary op arg s => exact ⟨_, _, rfl, (labelForm_append (by decide)).trans rfl⟩
  | binary op left right s =>
    refine ⟨_, _, rfl, ?_⟩
    cases op <;> exact (labelForm_append (by decide)).trans rfl
  | conditional test consequent alternate s => exact ⟨"Conditional", _, rfl, rfl⟩

/-- Values whose rows begin with the same row have the same form. -/
theorem Value.form_eq_of_rows {v v' : Value} {depth : Nat} {t t' : List Row}
    (h : (v.rows depth).map Row.bare ++ t = (v'.rows depth).map Row.bare ++ t') :
    v.ctorIdx = v'.ctorIdx := by
  obtain ⟨label, rows, hv, hform, -⟩ := v.exists_row depth
  obtain ⟨label', rows', hv', hform', -⟩ := v'.exists_row depth
  rw [hv, hv', List.cons_append, List.cons_append, List.cons.injEq, Row.mk.injEq] at h
  rw [← hform, ← hform', h.1.2.1]

/-- Expressions whose rows begin with the same row have the same form. -/
theorem Expr.form_eq_of_rows {e e' : Expr} {depth : Nat} {t t' : List Row}
    (h : (e.rows depth).map Row.bare ++ t = (e'.rows depth).map Row.bare ++ t') :
    e.ctorIdx = e'.ctorIdx := by
  obtain ⟨label, rows, he, hform⟩ := e.exists_row depth
  obtain ⟨label', rows', he', hform'⟩ := e'.exists_row depth
  rw [he, he', List.cons_append, List.cons_append, List.cons.injEq, Row.mk.injEq] at h
  rw [← hform, ← hform', h.1.2.1]

/-- The text of a unary operator tells it. -/
theorem UnaryOp.text_inj {op op' : UnaryOp} (h : op.text = op'.text) : op = op' := by
  have htoken : op.token = op'.token := String.singleton_inj.mp h
  rw [← Option.some.injEq, ← ofChar?_token op, htoken, ofChar?_token]

/-- The label of an infix operator. -/
def BinaryOp.label (op : BinaryOp) : String :=
  (if op.isLogical then "Logical " else "Binary ") ++ op.text

/-- The infix operator of a label. -/
def BinaryOp.ofLabel? (label : String) : Option BinaryOp :=
  levels.flatten.find? fun op => op.label = label

theorem BinaryOp.ofLabel?_label (op : BinaryOp) : ofLabel? op.label = some op := by
  cases op <;> decide

theorem BinaryOp.label_inj {op op' : BinaryOp} (h : op.label = op'.label) : op = op' := by
  rw [← Option.some.injEq, ← ofLabel?_label op, h, ofLabel?_label]

theorem Ident.bare_eq {id id' : Ident} (h : id.name = id'.name) : id.bare = id'.bare := by
  rw [bare, h, bare]

/-- A string is told from its quoted text, whatever it holds: the quote stands before it. -/
theorem string_label_inj {content content' : String} {quote quote' : Char}
    (h : "String " ++ quote.toString ++ content ++ quote.toString =
      "String " ++ quote'.toString ++ content' ++ quote'.toString) :
    content = content' ∧ quote = quote' := by
  have hquote : quote = quote' := by
    have hlist := congrArg String.toList h
    simp only [String.toList_append, List.append_assoc, List.append_cancel_left_eq] at hlist
    rw [Char.toString, Char.toString, String.toList_singleton, String.toList_singleton] at hlist
    exact List.head_eq_of_cons_eq hlist
  subst hquote
  exact ⟨by rwa [String.append_left_inj, String.append_right_inj] at h, rfl⟩

theorem toString_inj {n n' : Nat} (h : toString n = toString n') : n = n' := by
  rw [Nat.toString_eq_ofList_toDigits, Nat.toString_eq_ofList_toDigits, String.ofList_inj] at h
  rw [← Nat.ofDigitChars_ten_toDigits (n := n), h, Nat.ofDigitChars_ten_toDigits]

/-- The star of a default key is not part of a name. -/
theorem key_inj {key key' : String} {p p' : Prop} [Decidable p] [Decidable p']
    (hkey : IsName key.toList) (hkey' : IsName key'.toList)
    (h : "Key " ++ (if p then "*" else "") ++ key = "Key " ++ (if p' then "*" else "") ++ key') :
    key = key' ∧ (p ↔ p') := by
  have hstar : ∀ {name name' : String}, IsName name'.toList → "*" ++ name ≠ name' := by
    rintro name _ hname rfl
    exact absurd (hname.2 '*' (by simp)) (by decide)
  simp only [String.append_assoc, String.append_right_inj] at h
  split at h <;> split at h <;> rename_i hp hp'
  · exact ⟨(String.append_right_inj _).mp h, iff_of_true hp hp'⟩
  · exact absurd (h.trans (String.empty_append ..)) (hstar hkey')
  · exact absurd (h.symm.trans (String.empty_append ..)) (hstar hkey)
  · exact ⟨(String.append_right_inj _).mp h, iff_of_false hp hp'⟩

end Labels

/-! ### What follows a node -/

/-- The next row, if there is one, is less deep than `depth`. -/
def Outdented (depth : Nat) (rows : List Row) : Prop := ∀ row ∈ rows.head?, row.depth < depth

section Outdented

variable {depth depth' : Nat} {row : Row} {t : List Row}

theorem outdented_cons : Outdented depth (row :: t) ↔ row.depth < depth := by
  simp [Outdented]

theorem Outdented.mono (h : Outdented depth t) (hd : depth ≤ depth') : Outdented depth' t :=
  fun row hrow => Nat.lt_of_lt_of_le (h row hrow) hd

theorem Expr.outdented (e : Expr) : Outdented (depth + 1) ((e.rows depth).map Row.bare ++ t) := by
  obtain ⟨label, rows, he, -⟩ := e.exists_row depth
  rw [he]
  exact outdented_cons.mpr (Nat.lt_succ_self depth)

/-- What follows some nodes at a depth is not below the last of them. -/
theorem outdented_itemRows {items : List Expr} (h : Outdented depth t) :
    Outdented (depth + 1) ((itemRows depth items).map Row.bare ++ t) := by
  cases items with
  | nil => exact h.mono (Nat.le_succ depth)
  | cons item items =>
    rw [itemRows, List.map_append, List.append_assoc]
    exact item.outdented

theorem outdented_memberRows {members : List (String × Expr)} {default : Option String}
    (h : Outdented depth t) :
    Outdented (depth + 2) ((memberRows default depth members).map Row.bare ++ t) := by
  cases members with
  | nil => exact h.mono (Nat.le_add_right depth 2)
  | cons m members => exact outdented_cons.mpr (Nat.lt_add_of_pos_right (by decide))

end Outdented

/-! ### Values and expressions -/

/-- Rows of the same depth that begin two texts: what their labels go on with. -/
theorem Row.label_inj {depth : Nat} {lead rest rest' : String} {s s' : Option Span}
    {t t' : List Row} (h : (⟨depth, lead ++ rest, s⟩ : Row).bare :: t =
      (⟨depth, lead ++ rest', s'⟩ : Row).bare :: t') : rest = rest' ∧ t = t' := by
  simpa [Row.bare] using h

/-- Keys are default keys of two objects alike only if the objects have the same default. -/
theorem default_unique {keys : List String} {default default' : Option String}
    (h : ∀ key, default = some key → key ∈ keys) (h' : ∀ key, default' = some key → key ∈ keys)
    (hiff : ∀ key ∈ keys, default = some key ↔ default' = some key) : default = default' :=
  Option.ext fun key =>
    ⟨fun hkey => (hiff key (h key hkey)).mp hkey, fun hkey => (hiff key (h' key hkey)).mpr hkey⟩

mutual

/-- A value is cut off in one way from the rows behind it that are not below it. -/
theorem Value.rows_unique : ∀ (v v' : Value) {depth : Nat} {t t' : List Row}, v.WellFormed →
    v'.WellFormed → Outdented (depth + 1) t → Outdented (depth + 1) t' →
    (v.rows depth).map Row.bare ++ t = (v'.rows depth).map Row.bare ++ t' →
    v.bare = v'.bare ∧ t = t'
  | .string content quote s, v', depth, t, t', hw, hw', ht, ht', h => by
    cases v' with
    | string content' quote' s' =>
      obtain ⟨hrow, hrest⟩ := List.cons.inj h
      obtain ⟨rfl, rfl⟩ := string_label_inj (Row.mk.inj hrow).2.1
      exact ⟨rfl, hrest⟩
    | _ => nomatch Value.form_eq_of_rows h
  | .array items s, v', depth, t, t', hw, hw', ht, ht', h => by
    cases v' with
    | array items' s' =>
      obtain ⟨hitems, rfl⟩ := itemRows_unique items items' hw hw' ht ht' (List.tail_eq_of_cons_eq h)
      exact ⟨by rw [Value.bare, hitems, Value.bare], rfl⟩
    | _ => nomatch Value.form_eq_of_rows h
  | .object members default s, v', depth, t, t', hw, hw', ht, ht', h => by
    cases v' with
    | object members' default' s' =>
      obtain ⟨hmembers, hiff, rfl⟩ := memberRows_unique members members' hw.2.2 hw'.2.2 ht ht'
        (List.tail_eq_of_cons_eq h)
      have hkeys : members'.map Prod.fst = members.map Prod.fst := by
        rw [← map_fst_bareMembers, ← hmembers, map_fst_bareMembers]
      have hdefault : default = default' := default_unique hw.2.1 (hkeys ▸ hw'.2.1) hiff
      exact ⟨by rw [Value.bare, hmembers, hdefault, Value.bare], rfl⟩
    | _ => nomatch Value.form_eq_of_rows h

/-- An expression is cut off in one way from the rows behind it that are not below it. -/
theorem Expr.rows_unique : ∀ (e e' : Expr) {depth : Nat} {t t' : List Row}, e.WellFormed →
    e'.WellFormed → Outdented (depth + 1) t → Outdented (depth + 1) t' →
    (e.rows depth).map Row.bare ++ t = (e'.rows depth).map Row.bare ++ t' →
    e.bare = e'.bare ∧ t = t'
  | .integer n s, e', depth, t, t', hw, hw', ht, ht', h => by
    cases e' with
    | integer n' s' =>
      obtain ⟨hn, rfl⟩ := Row.label_inj h
      exact ⟨by rw [Expr.bare, toString_inj hn, Expr.bare], rfl⟩
    | _ => nomatch Expr.form_eq_of_rows h
  | .ident id, e', depth, t, t', hw, hw', ht, ht', h => by
    cases e' with
    | ident id' =>
      obtain ⟨hname, rfl⟩ := Row.label_inj h
      exact ⟨by rw [Expr.bare, Ident.bare_eq hname, Expr.bare], rfl⟩
    | _ => nomatch Expr.form_eq_of_rows h
  | .reference scope id s, e', depth, t, t', hw, hw', ht, ht', h => by
    cases e' with
    | reference scope' id' s' =>
      obtain ⟨rfl, hname, rfl⟩ : scope = scope' ∧ id.name = id'.name ∧ t = t' := by
        cases scope <;> cases scope' <;> simp_all [Expr.rows, Row.bare, ← String.toList_inj]
      exact ⟨by rw [Expr.bare, Ident.bare_eq hname, Expr.bare], rfl⟩
    | _ => nomatch Expr.form_eq_of_rows h
  | .this s, e', depth, t, t', hw, hw', ht, ht', h => by
    cases e' with
    | this s' => exact ⟨rfl, List.tail_eq_of_cons_eq h⟩
    | _ => nomatch Expr.form_eq_of_rows h
  | .value v, e', depth, t, t', hw, hw', ht, ht', h => by
    cases e' with
    | value v' =>
      obtain ⟨hv, rfl⟩ := Value.rows_unique v v' hw hw' ht ht' h
      exact ⟨by rw [Expr.bare, hv, Expr.bare], rfl⟩
    | _ => nomatch Expr.form_eq_of_rows h
  | .parenthesis inner s, e', depth, t, t', hw, hw', ht, ht', h => by
    cases e' with
    | parenthesis inner' s' =>
      obtain ⟨hinner, rfl⟩ := Expr.rows_unique inner inner' hw hw' (ht.mono (Nat.le_succ _))
        (ht'.mono (Nat.le_succ _)) (List.tail_eq_of_cons_eq h)
      exact ⟨by rw [Expr.bare, hinner, Expr.bare], rfl⟩
    | _ => nomatch Expr.form_eq_of_rows h
  | .call callee args s, e', depth, t, t', hw, hw', ht, ht', h => by
    cases e' with
    | call callee' args' s' =>
      obtain ⟨hname, hrest⟩ := Row.label_inj h
      obtain ⟨hargs, rfl⟩ := itemRows_unique args args' hw.2 hw'.2 ht ht' hrest
      exact ⟨by rw [Expr.bare, Ident.bare_eq hname, hargs, Expr.bare], rfl⟩
    | _ => nomatch Expr.form_eq_of_rows h
  | .select selection base key s, e', depth, t, t', hw, hw', ht, ht', h => by
    cases e' with
    | select selection' base' key' s' =>
      obtain ⟨rfl, hname, hrest⟩ : selection = selection' ∧ base.name = base'.name ∧
          (key.rows (depth + 1)).map Row.bare ++ t =
            (key'.rows (depth + 1)).map Row.bare ++ t' := by
        cases selection <;> cases selection' <;>
          simp_all [Expr.rows, Row.bare, ← String.toList_inj]
      obtain ⟨hkey, rfl⟩ := Expr.rows_unique key key' hw.2 hw'.2 (ht.mono (Nat.le_succ _))
        (ht'.mono (Nat.le_succ _)) hrest
      exact ⟨by rw [Expr.bare, Ident.bare_eq hname, hkey, Expr.bare], rfl⟩
    | _ => nomatch Expr.form_eq_of_rows h
  | .unary op arg s, e', depth, t, t', hw, hw', ht, ht', h => by
    cases e' with
    | unary op' arg' s' =>
      obtain ⟨hop, hrest⟩ := Row.label_inj h
      obtain ⟨harg, rfl⟩ := Expr.rows_unique arg arg' hw.2 hw'.2 (ht.mono (Nat.le_succ _))
        (ht'.mono (Nat.le_succ _)) hrest
      exact ⟨by rw [Expr.bare, UnaryOp.text_inj hop, harg, Expr.bare], rfl⟩
    | _ => nomatch Expr.form_eq_of_rows h
  | .binary op left right s, e', depth, t, t', hw, hw', ht, ht', h => by
    cases e' with
    | binary op' left' right' s' =>
      simp only [Expr.rows, List.map_cons, List.map_append, List.cons_append, List.append_assoc,
        Row.bare, List.cons.injEq, Row.mk.injEq, true_and, and_true] at h
      obtain ⟨hop, hrest⟩ := h
      obtain ⟨hleft, hrest⟩ := Expr.rows_unique left left' hw.1.2 hw'.1.2 right.outdented
        right'.outdented hrest
      obtain ⟨hright, rfl⟩ := Expr.rows_unique right right' hw.2.2 hw'.2.2 (ht.mono (Nat.le_succ _))
        (ht'.mono (Nat.le_succ _)) hrest
      exact ⟨by rw [Expr.bare, BinaryOp.label_inj hop, hleft, hright, Expr.bare], rfl⟩
    | _ => nomatch Expr.form_eq_of_rows h
  | .conditional test consequent alternate s, e', depth, t, t', hw, hw', ht, ht', h => by
    cases e' with
    | conditional test' consequent' alternate' s' =>
      simp only [Expr.rows, List.map_cons, List.map_append, List.cons_append, List.append_assoc,
        List.cons.injEq] at h
      obtain ⟨htest, hrest⟩ := Expr.rows_unique test test' hw.1.2 hw'.1.2 consequent.outdented
        consequent'.outdented h.2
      obtain ⟨hconsequent, hrest⟩ := Expr.rows_unique consequent consequent' hw.2.1 hw'.2.1
        alternate.outdented alternate'.outdented hrest
      obtain ⟨halternate, rfl⟩ := Expr.rows_unique alternate alternate' hw.2.2 hw'.2.2
        (ht.mono (Nat.le_succ _)) (ht'.mono (Nat.le_succ _)) hrest
      exact ⟨by rw [Expr.bare, htest, hconsequent, halternate, Expr.bare], rfl⟩
    | _ => nomatch Expr.form_eq_of_rows h

/-- By recursion on the nodes: the rows of the first one end where a row is not deeper. -/
theorem itemRows_unique : ∀ (items items' : List Expr) {depth : Nat} {t t' : List Row},
    WellFormedItems items → WellFormedItems items' → Outdented depth t → Outdented depth t' →
    (itemRows depth items).map Row.bare ++ t = (itemRows depth items').map Row.bare ++ t' →
    bareItems items = bareItems items' ∧ t = t'
  | [], [], _, _, _, _, _, _, _, h => ⟨rfl, h⟩
  | [], item :: items, depth, t, t', _, _, ht, _, h => by
    obtain ⟨label, rows, hitem, -⟩ := item.exists_row depth
    simp only [itemRows, List.map_nil, List.nil_append, List.map_append, hitem,
      List.cons_append] at h
    exact absurd (outdented_cons.mp (h ▸ ht)) (Nat.lt_irrefl depth)
  | item :: items, [], depth, t, t', _, _, _, ht', h => by
    obtain ⟨label, rows, hitem, -⟩ := item.exists_row depth
    simp only [itemRows, List.map_nil, List.nil_append, List.map_append, hitem,
      List.cons_append] at h
    exact absurd (outdented_cons.mp (h ▸ ht')) (Nat.lt_irrefl depth)
  | item :: items, item' :: items', depth, t, t', hw, hw', ht, ht', h => by
    simp only [itemRows, List.map_append, List.append_assoc] at h
    obtain ⟨hitem, hrest⟩ := Expr.rows_unique item item' hw.1 hw'.1 (outdented_itemRows ht)
      (outdented_itemRows ht') h
    obtain ⟨hitems, rfl⟩ := itemRows_unique items items' hw.2 hw'.2 ht ht' hrest
    exact ⟨by rw [bareItems, hitem, hitems, bareItems], rfl⟩

theorem memberRows_unique : ∀ (members members' : List (String × Expr))
    {default default' : Option String} {depth : Nat} {t t' : List Row},
    WellFormedMembers members → WellFormedMembers members' → Outdented depth t →
    Outdented depth t' →
    (memberRows default depth members).map Row.bare ++ t =
      (memberRows default' depth members').map Row.bare ++ t' →
    bareMembers members = bareMembers members' ∧
      (∀ key ∈ members.map Prod.fst, default = some key ↔ default' = some key) ∧ t = t'
  | [], [], _, _, _, _, _, _, _, _, _, h => ⟨rfl, by simp, h⟩
  | [], (_, _) :: _, _, _, depth, _, _, _, _, ht, _, h => by
    rw [memberRows, List.map_nil, List.nil_append] at h
    exact absurd (outdented_cons.mp (h ▸ ht)) (Nat.lt_irrefl depth)
  | (_, _) :: _, [], _, _, depth, _, _, _, _, _, ht', h => by
    rw [memberRows, memberRows, List.map_nil, List.nil_append] at h
    exact absurd (outdented_cons.mp (h ▸ ht')) (Nat.lt_irrefl depth)
  | (key, item) :: members, (key', item') :: members', default, default', depth, t, t', hw, hw', ht,
      ht', h => by
    simp only [memberRows, List.map_cons, List.map_append, List.cons_append, List.append_assoc,
      Row.bare, List.cons.injEq, Row.mk.injEq, true_and, and_true] at h
    obtain ⟨hlabel, hrest⟩ := h
    obtain ⟨rfl, hstar⟩ := key_inj hw.1.1 hw'.1.1 hlabel
    obtain ⟨hitem, hrest⟩ := Expr.rows_unique item item' hw.1.2 hw'.1.2
      (outdented_memberRows ht) (outdented_memberRows ht') hrest
    obtain ⟨hmembers, hiff, rfl⟩ := memberRows_unique members members' hw.2 hw'.2 ht ht' hrest
    exact ⟨by rw [bareMembers, hitem, hmembers, bareMembers],
      List.forall_mem_cons.mpr ⟨hstar, hiff⟩, rfl⟩

end

/-! ### Entries -/

section Entries

variable {depth : Nat} {t t' : List Row}

theorem attributeRows_cons (a : String × Value) (attributes : Attributes) :
    attributeRows depth (some (a :: attributes)) =
      ⟨depth, "Attr " ++ a.1, none⟩ ::
        (a.2.rows (depth + 1) ++ attributeRows depth (some attributes)) :=
  rfl

theorem outdented_attributeRows {attributes : Option Attributes} (h : Outdented depth t) :
    Outdented (depth + 1) ((attributeRows depth attributes).map Row.bare ++ t) := by
  rcases attributes with _ | _ | ⟨a, attributes⟩
  · exact h.mono (Nat.le_succ depth)
  · exact h.mono (Nat.le_succ depth)
  · exact outdented_cons.mpr (Nat.lt_succ_self depth)

theorem attributeList_unique : ∀ (attributes attributes' : Attributes) {t t' : List Row},
    (∀ a ∈ attributes, a.2.WellFormed) → (∀ a ∈ attributes', a.2.WellFormed) →
    Outdented depth t → Outdented depth t' →
    (attributeRows depth (some attributes)).map Row.bare ++ t =
      (attributeRows depth (some attributes')).map Row.bare ++ t' →
    attributes.bare = attributes'.bare ∧ t = t'
  | [], [], _, _, _, _, _, _, h => ⟨rfl, h⟩
  | [], a :: attributes, t, _, _, _, ht, _, h => by
    have hcons : t = ⟨depth, "Attr " ++ a.1, none⟩ :: _ := h
    exact absurd (outdented_cons.mp (hcons ▸ ht)) (Nat.lt_irrefl depth)
  | a :: attributes, [], _, t', _, _, _, ht', h => by
    have hcons : ⟨depth, "Attr " ++ a.1, none⟩ :: _ = t' := h
    exact absurd (outdented_cons.mp (hcons ▸ ht')) (Nat.lt_irrefl depth)
  | (key, v) :: attributes, (key', v') :: attributes', _, _, hw, hw', ht, ht', h => by
    obtain ⟨hv, hrestw⟩ := List.forall_mem_cons.mp hw
    obtain ⟨hv', hrestw'⟩ := List.forall_mem_cons.mp hw'
    simp only [attributeRows_cons, List.map_cons, List.map_append, List.cons_append,
      List.append_assoc] at h
    obtain ⟨rfl, hrest⟩ := Row.label_inj h
    obtain ⟨hvalue, hrest⟩ := Value.rows_unique v v' hv hv'
      ((outdented_attributeRows ht).mono (Nat.le_succ _))
      ((outdented_attributeRows ht').mono (Nat.le_succ _)) hrest
    obtain ⟨hattributes, rfl⟩ := attributeList_unique attributes attributes' hrestw hrestw' ht ht'
      hrest
    exact ⟨congrArg₂ List.cons (congrArg (Prod.mk key) hvalue) hattributes, rfl⟩

/-- No attributes and an empty list of them have the same rows, but the latter is never written. -/
theorem attributeRows_unique {attributes attributes' : Option Attributes}
    (hw : ∀ entries : Attributes, attributes = some entries → entries.WellFormed)
    (hw' : ∀ entries : Attributes, attributes' = some entries → entries.WellFormed)
    (ht : Outdented depth t) (ht' : Outdented depth t')
    (h : (attributeRows depth attributes).map Row.bare ++ t =
      (attributeRows depth attributes').map Row.bare ++ t') :
    attributes.map Attributes.bare = attributes'.map Attributes.bare ∧ t = t' := by
  cases attributes with
  | none =>
    cases attributes' with
    | none => exact ⟨rfl, h⟩
    | some entries' =>
      obtain ⟨hbare, -⟩ := attributeList_unique [] entries' (by simp) (hw' _ rfl).value ht ht' h
      exact absurd (List.map_eq_nil_iff.mp hbare.symm) (hw' _ rfl).nonempty
  | some entries =>
    cases attributes' with
    | none =>
      obtain ⟨hbare, -⟩ := attributeList_unique entries [] (hw _ rfl).value (by simp) ht ht' h
      exact absurd (List.map_eq_nil_iff.mp hbare) (hw _ rfl).nonempty
    | some entries' =>
      obtain ⟨hbare, hrest⟩ := attributeList_unique entries entries' (hw _ rfl).value
        (hw' _ rfl).value ht ht' h
      exact ⟨congrArg some hbare, hrest⟩

/-- The row of an index is not that of a value. -/
theorem Value.rows_ne_index {v : Value} {items : List Expr} :
    (v.rows depth).map Row.bare ++ t ≠ (indexRows depth (some items)).map Row.bare ++ t' := by
  intro h
  obtain ⟨label, rows, hv, -, hform⟩ := v.exists_row depth
  rw [hv] at h
  obtain ⟨hrow, -⟩ := List.cons.inj h
  have hlabel : label = "Index" := (Row.mk.inj hrow).2.1
  rw [hlabel] at hform
  exact absurd hform (by decide)

/-- An index with the value behind it is cut off in one way. -/
theorem indexRows_unique {index index' : Option (List Expr)} {v v' : Value}
    (hw : ∀ items, index = some items → WellFormedItems items)
    (hw' : ∀ items, index' = some items → WellFormedItems items) (hv : v.WellFormed)
    (hv' : v'.WellFormed) (ht : Outdented (depth + 1) t) (ht' : Outdented (depth + 1) t')
    (h : (indexRows depth index).map Row.bare ++ ((v.rows depth).map Row.bare ++ t) =
      (indexRows depth index').map Row.bare ++ ((v'.rows depth).map Row.bare ++ t')) :
    index.map bareItems = index'.map bareItems ∧ v.bare = v'.bare ∧ t = t' := by
  cases index with
  | none =>
    cases index' with
    | none => exact ⟨rfl, Value.rows_unique v v' hv hv' ht ht' h⟩
    | some items' => exact absurd h Value.rows_ne_index
  | some items =>
    cases index' with
    | none => exact absurd h.symm Value.rows_ne_index
    | some items' =>
      obtain ⟨hitems, hrest⟩ := itemRows_unique items items' (hw items rfl) (hw' items' rfl)
        (Expr.value v).outdented (Expr.value v').outdented (List.tail_eq_of_cons_eq h)
      exact ⟨congrArg some hitems, Value.rows_unique v v' hv hv' ht ht' hrest⟩

/-- Parameters behind the first one are told apart by the commas between them. -/
theorem parameters_unique : ∀ {ps ps' : List Ident}, (∀ p ∈ ps, IsName p.name.toList) →
    (∀ p ∈ ps', IsName p.name.toList) →
    (ps.flatMap fun p => ',' :: ' ' :: '$' :: p.name.toList) ++ [')'] =
      (ps'.flatMap fun p => ',' :: ' ' :: '$' :: p.name.toList) ++ [')'] →
    ps.map Ident.bare = ps'.map Ident.bare
  | [], [], _, _, _ => rfl
  | [], _ :: _, _, _, h => by simp at h
  | _ :: _, [], _, _, h => by simp at h
  | p :: ps, p' :: ps', hw, hw', h => by
    obtain ⟨hp, hps⟩ := List.forall_mem_cons.mp hw
    obtain ⟨hp', hps'⟩ := List.forall_mem_cons.mp hw'
    have hends : ∀ ps : List Ident, NextNot isWordChar
        ((ps.flatMap fun p => ',' :: ' ' :: '$' :: p.name.toList) ++ [')']) := by
      intro ps
      cases ps with
      | nil => exact nextNot_cons.mpr (by decide)
      | cons p ps => exact nextNot_cons.mpr (by decide)
    simp only [List.flatMap_cons, List.cons_append, List.append_assoc, List.cons.injEq,
      true_and] at h
    obtain ⟨hname, hrest⟩ := run_unique hp.2 hp'.2 (hends ps) (hends ps') h
    rw [List.map_cons, List.map_cons, Ident.bare_eq (String.toList_inj.mp hname),
      parameters_unique hps hps' hrest]

/-- The label of a macro tells its name and its parameters. -/
theorem macro_label_inj {name name' : String} {ps ps' : List Ident} (hname : IsName name.toList)
    (hname' : IsName name'.toList) (hps : ∀ p ∈ ps, IsName p.name.toList)
    (hps' : ∀ p ∈ ps', IsName p.name.toList)
    (h : "Macro " ++ name ++ "(" ++ ", ".intercalate (ps.map fun id => "$" ++ id.name) ++ ")" =
      "Macro " ++ name' ++ "(" ++ ", ".intercalate (ps'.map fun id => "$" ++ id.name) ++ ")") :
    name = name' ∧ ps.map Ident.bare = ps'.map Ident.bare := by
  simp only [String.append_assoc, String.append_right_inj] at h
  have hlist := congrArg String.toList h
  simp only [String.toList_append] at hlist
  have hopen : ∀ s : List Char, NextNot isWordChar ("(".toList ++ s) := fun s =>
    nextNot_cons.mpr (by decide)
  obtain ⟨hnames, hlist⟩ := run_unique hname.2 hname'.2 (hopen _) (hopen _) hlist
  refine ⟨String.toList_inj.mp hnames, ?_⟩
  rw [List.append_cancel_left_eq] at hlist
  cases ps with
  | nil =>
    cases ps' with
    | nil => rfl
    | cons p' ps' =>
      rw [toList_parameters] at hlist
      simp at hlist
  | cons p ps =>
    cases ps' with
    | nil =>
      rw [toList_parameters] at hlist
      simp at hlist
    | cons p' ps' =>
      rw [toList_parameters, toList_parameters] at hlist
      refine parameters_unique hps hps' ?_
      simpa using hlist

/-- Two entries that begin the same rows are the same, and so is what follows. -/
theorem Entry.rows_unique {e e' : Entry} (hw : e.WellFormed) (hw' : e'.WellFormed)
    (ht : Outdented 2 t) (ht' : Outdented 2 t')
    (h : e.rows.map Row.bare ++ t = e'.rows.map Row.bare ++ t') : e.bare = e'.bare ∧ t = t' := by
  cases e with
  | entity e =>
    cases e' with
    | entity e' =>
      obtain ⟨-, hindex, hvalue, hattributes⟩ := hw
      obtain ⟨-, hindex', hvalue', hattributes'⟩ := hw'
      simp only [Entry.rows, List.map_cons, List.map_append, List.cons_append,
        List.append_assoc] at h
      obtain ⟨hname, hrest⟩ := Row.label_inj h
      obtain ⟨hbareIndex, hbareValue, hrest⟩ := indexRows_unique hindex hindex' hvalue hvalue'
        (outdented_attributeRows ht) (outdented_attributeRows ht') hrest
      obtain ⟨hbareAttributes, rfl⟩ := attributeRows_unique hattributes hattributes' ht ht' hrest
      refine ⟨?_, rfl⟩
      rw [Entry.bare, Entity.bare, Ident.bare_eq hname, hbareIndex, hbareValue, hbareAttributes,
        Entry.bare, Entity.bare]
    | macroDef m' => simp [Entry.rows, Row.bare, ← String.toList_inj] at h
  | macroDef m =>
    cases e' with
    | entity e' => simp [Entry.rows, Row.bare, ← String.toList_inj] at h
    | macroDef m' =>
      obtain ⟨hid, hparameters, hbody, hattributes⟩ := hw
      obtain ⟨hid', hparameters', hbody', hattributes'⟩ := hw'
      simp only [Entry.rows, List.map_cons, List.map_append, List.cons_append, List.append_assoc,
        List.cons.injEq] at h
      obtain ⟨hrow, hrest⟩ := h
      obtain ⟨hname, hbareParameters⟩ := macro_label_inj hid hid' hparameters hparameters'
        (Row.mk.inj hrow).2.1
      obtain ⟨hbareBody, hrest⟩ := Expr.rows_unique m.body m'.body hbody hbody'
        (outdented_attributeRows ht) (outdented_attributeRows ht') hrest
      obtain ⟨hbareAttributes, rfl⟩ := attributeRows_unique hattributes hattributes' ht ht' hrest
      refine ⟨?_, rfl⟩
      rw [Entry.bare, Macro.bare, Ident.bare_eq hname, hbareParameters, hbareBody, hbareAttributes,
        Entry.bare, Macro.bare]

theorem outdented_entryRows (es : List Entry) :
    Outdented 2 ((es.flatMap Entry.rows).map Row.bare) := by
  cases es with
  | nil => exact fun row hrow => nomatch hrow
  | cons e es => cases e <;> exact outdented_cons.mpr Nat.one_lt_two

/-- By recursion on the entries. -/
theorem entryRows_unique : ∀ {es es' : List Entry}, (∀ e ∈ es, e.WellFormed) →
    (∀ e ∈ es', e.WellFormed) →
    (es.flatMap Entry.rows).map Row.bare = (es'.flatMap Entry.rows).map Row.bare →
    es.map Entry.bare = es'.map Entry.bare
  | [], [], _, _, _ => rfl
  | [], e :: _, _, _, h => by cases e <;> simp [Entry.rows] at h
  | e :: _, [], _, _, h => by cases e <;> simp [Entry.rows] at h
  | e :: es, e' :: es', hw, hw', h => by
    obtain ⟨he, hes⟩ := List.forall_mem_cons.mp hw
    obtain ⟨he', hes'⟩ := List.forall_mem_cons.mp hw'
    simp only [List.flatMap_cons, List.map_append] at h
    obtain ⟨hbare, hrest⟩ := Entry.rows_unique he he' (outdented_entryRows es)
      (outdented_entryRows es') h
    rw [List.map_cons, List.map_cons, hbare, entryRows_unique hes hes' hrest]

end Entries

/-! ### Rows of trees without spans -/

mutual

theorem Value.rows_bare : ∀ (v : Value) (depth : Nat),
    (v.bare.rows depth).map Row.bare = (v.rows depth).map Row.bare
  | .string .., _ => rfl
  | .array items _, depth => congrArg (List.cons _) (itemRows_bare items (depth + 1))
  | .object members default _, depth =>
    congrArg (List.cons _) (memberRows_bare members default (depth + 1))

/-- Spans are not shown. -/
theorem Expr.rows_bare : ∀ (e : Expr) (depth : Nat),
    (e.bare.rows depth).map Row.bare = (e.rows depth).map Row.bare
  | .integer .., _ => rfl
  | .ident _, _ => rfl
  | .reference .variable _ _, _ => rfl
  | .reference .global _ _, _ => rfl
  | .this _, _ => rfl
  | .value v, depth => v.rows_bare depth
  | .parenthesis inner _, depth => congrArg (List.cons _) (inner.rows_bare (depth + 1))
  | .call _ args _, depth => congrArg (List.cons _) (itemRows_bare args (depth + 1))
  | .select .attribute _ key _, depth => congrArg (List.cons _) (key.rows_bare (depth + 1))
  | .select .member _ key _, depth => congrArg (List.cons _) (key.rows_bare (depth + 1))
  | .unary _ arg _, depth => congrArg (List.cons _) (arg.rows_bare (depth + 1))
  | .binary _ left right _, depth => by
    simp only [Expr.bare, Expr.rows, List.map_cons, List.map_append, left.rows_bare,
      right.rows_bare, Row.bare]
  | .conditional test consequent alternate _, depth => by
    simp only [Expr.bare, Expr.rows, List.map_cons, List.map_append, test.rows_bare,
      consequent.rows_bare, alternate.rows_bare, Row.bare]

theorem itemRows_bare : ∀ (items : List Expr) (depth : Nat),
    (itemRows depth (bareItems items)).map Row.bare = (itemRows depth items).map Row.bare
  | [], _ => rfl
  | item :: items, depth => by
    simp only [bareItems, itemRows, List.map_append, item.rows_bare, itemRows_bare items]

theorem memberRows_bare : ∀ (members : List (String × Expr)) (default : Option String)
    (depth : Nat),
    (memberRows default depth (bareMembers members)).map Row.bare =
      (memberRows default depth members).map Row.bare
  | [], _, _ => rfl
  | (key, item) :: members, default, depth => by
    simp only [bareMembers, memberRows, List.map_cons, List.map_append, item.rows_bare,
      memberRows_bare members]

end

theorem attributeRows_bare (attributes : Option Attributes) (depth : Nat) :
    (attributeRows depth (attributes.map Attributes.bare)).map Row.bare =
      (attributeRows depth attributes).map Row.bare := by
  cases attributes with
  | none => rfl
  | some attributes =>
    induction attributes with
    | nil => rfl
    | cons a attributes ih =>
      have hbare : (some (a :: attributes)).map Attributes.bare =
          some ((a.1, a.2.bare) :: Attributes.bare attributes) := rfl
      rw [Option.map_some] at ih
      simp only [hbare, attributeRows_cons, List.map_cons, List.map_append, a.2.rows_bare, ih]

theorem indexRows_bare (index : Option (List Expr)) (depth : Nat) :
    (indexRows depth (index.map bareItems)).map Row.bare =
      (indexRows depth index).map Row.bare := by
  cases index with
  | none => rfl
  | some items => exact congrArg (List.cons _) (itemRows_bare items (depth + 1))

theorem Entry.rows_bare (e : Entry) : e.bare.rows.map Row.bare = e.rows.map Row.bare := by
  cases e with
  | entity e =>
    simp only [Entry.bare, Entity.bare, Entry.rows, List.map_cons, List.map_append, indexRows_bare,
      e.value.rows_bare, attributeRows_bare, Row.bare, Ident.bare]
  | macroDef m =>
    have hparameters : (m.parameters.map Ident.bare).map (fun id => "$" ++ id.name) =
        m.parameters.map fun id => "$" ++ id.name := by simp [Ident.bare]
    simp only [Entry.bare, Macro.bare, Entry.rows, List.map_cons, List.map_append,
      m.body.rows_bare, attributeRows_bare, Row.bare, hparameters, Ident.bare]

/-! ### Outlines -/

namespace Resource

variable {limit limit' : Option Nat} {source source' : String} {r r' : Resource}

/-- Without the gaps only entries have rows. -/
theorem rows_false (r : Resource) :
    r.rows false = ⟨0, "Resource", some r.span⟩ :: r.entries.flatMap Entry.rows := by
  obtain ⟨body, s⟩ := r
  refine congrArg (List.cons _) ?_
  induction body with
  | nil => rfl
  | cons item body ih =>
    cases item with
    | entry e => exact congrArg (e.rows ++ ·) ih
    | gap g => exact ih

theorem toList_outline (r : Resource) : (r.outline false false).toList =
    (r.rows false).flatMap fun row => (row.text false).toList := by
  rw [outline, String.toList_join, List.flatMap_map]

/-- The outline without spans and blanks depends on nothing else than the bare entries. -/
theorem outline_congr (h : r.entries.map Entry.bare = r'.entries.map Entry.bare) :
    r.outline false false = r'.outline false false := by
  have hrows : ∀ r : Resource, (r.rows false).map Row.bare =
      ⟨0, "Resource", none⟩ :: (r.entries.map Entry.bare).flatMap fun e => e.rows.map Row.bare := by
    intro r
    simp only [rows_false, List.map_cons, List.map_flatMap, List.flatMap_map, Entry.rows_bare,
      Row.bare]
  have htext : ∀ r : Resource, (r.outline false false).toList =
      ((r.rows false).map Row.bare).flatMap fun row => (row.text false).toList := by
    intro r
    simp only [toList_outline, List.flatMap_map, Row.toList_text, Row.bare]
  rw [← String.toList_inj, htext, htext, hrows, hrows, h]

/-- The outlines of two trees that are read, without spans and blanks, are the same exactly when the
trees are the same but for their spans and the blanks they record. -/
theorem outline_eq_iff (h : read limit source = .ok r) (h' : read limit' source' = .ok r') :
    r.outline false false = r'.outline false false ↔
      r.entries.map Entry.bare = r'.entries.map Entry.bare := by
  refine ⟨fun he => ?_, outline_congr⟩
  have hw : r.WellFormed := wellFormed_of_ofChars (read_eq_ok_iff_ofChars.mp h)
  have hw' : r'.WellFormed := wellFormed_of_ofChars (read_eq_ok_iff_ofChars.mp h')
  have hlabels : ∀ r : Resource, r.WellFormed → ∀ row ∈ r.rows false, IsLabel row.label.toList := by
    intro r hw
    rw [rows_false]
    refine List.forall_mem_cons.mpr ⟨.word "Resource" (by decide), fun row hrow => ?_⟩
    obtain ⟨e, hmem, hrow⟩ := List.mem_flatMap.mp hrow
    exact Entry.isLabel (hw e hmem) row hrow
  rw [← String.toList_inj, toList_outline, toList_outline] at he
  have hrows := rows_unique (hlabels r hw) (hlabels r' hw') he
  rw [rows_false, rows_false] at hrows
  exact entryRows_unique hw hw' (List.tail_eq_of_cons_eq hrows)

/-- A string that looks like rows, with and without blanks around it, and a default key. -/
theorem outline_eq_iff_object : ∃ r r',
    read none "<a \x7b b: 'c\n  This', *d: $e \x7d>" = .ok r ∧
      read (some 3) "<a\x7bb:'c\n  This',*d:$e,\x7d >\n" = .ok r' ∧
      (r.outline false false = r'.outline false false ↔
        r.entries.map Entry.bare = r'.entries.map Entry.bare) := by
  obtain ⟨r, hr⟩ : ∃ r, read none "<a \x7b b: 'c\n  This', *d: $e \x7d>" = .ok r :=
    exists_of_isOk (by decide +kernel)
  obtain ⟨r', hr'⟩ : ∃ r', read (some 3) "<a\x7bb:'c\n  This',*d:$e,\x7d >\n" = .ok r' :=
    exists_of_isOk (by decide +kernel)
  exact ⟨r, r', hr, hr', outline_eq_iff hr hr'⟩

end Resource

end LocaleText
