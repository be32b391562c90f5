import LocaleText.Outline
import LocaleText.Proofs.Layout.Basic
import LocaleText.Proofs.Writing.Basic

/-!
# The rows of an outline are told apart

A string is shown as it is written, and may hold line ends, indentation and what looks like the rows
of an outline. Still the text of an outline without spans tells its rows: a row that shows a string
ends behind the quote that closes it, and no other row holds a line end.

* `IsLabel` are the labels of the nodes of well-formed trees
* `Row.text_unique` cuts off a row, `rows_unique` all rows of a text
* `Expr.isLabel`, `Entry.isLabel` and their companions: rows of well-formed trees have such labels
-/

namespace LocaleText

def Row.bare (row : Row) : Row := ⟨row.depth, row.label, none⟩

/-! ### Labels -/

/-- What a row may say: a text on one line that begins with neither a blank nor the first letter of
the word for strings, or a string in its quotes behind that word. -/
inductive IsLabel : List Char → Prop
  | line {c : Char} {cs : List Char} : c ≠ ' ' → c ≠ 'S' → '\n' ∉ c :: cs → IsLabel (c :: cs)
  | string {quote : Char} {content : List Char} : StringContent quote 0 content →
      IsLabel ("String ".toList ++ quote :: (content ++ [quote]))

namespace IsLabel

variable {label label' s s' : List Char}

theorem nextNot_space (h : IsLabel label) : NextNot (· == ' ') (label ++ '\n' :: s) := by
  cases h with
  | line hc _ _ => exact nextNot_cons.mpr (by simpa using hc)
  | string _ => exact nextNot_cons.mpr (by decide)

/-- A label is cut off in one way from the line end behind it. -/
theorem unique (h : IsLabel label) (h' : IsLabel label')
    (he : label ++ '\n' :: s = label' ++ '\n' :: s') : label = label' ∧ s = s' := by
  cases h with
  | line _ hS hline =>
    cases h' with
    | line _ _ hline' =>
      have hall : ∀ {cs : List Char}, '\n' ∉ cs → ∀ c ∈ cs, (c != '\n') = true := by
        intro cs hcs c hc
        rw [bne_iff_ne]
        exact fun hn => hcs (hn ▸ hc)
      obtain ⟨hlabel, hs⟩ := run_unique (hall hline) (hall hline') (nextNot_cons.mpr (by simp))
        (nextNot_cons.mpr (by simp)) he
      exact ⟨hlabel, List.tail_eq_of_cons_eq hs⟩
    | string _ => exact absurd (List.head_eq_of_cons_eq he) hS
  | string hc =>
    cases h' with
    | line _ hS' _ => exact absurd (List.head_eq_of_cons_eq he).symm hS'
    | string hc' =>
      simp only [List.append_assoc, List.append_cancel_left_eq, List.cons_append, List.cons.injEq,
        List.nil_append] at he
      obtain ⟨rfl, hrest⟩ := he
      obtain ⟨rfl, hs⟩ := quoted_unique hc hc' hrest
      exact ⟨rfl, List.tail_eq_of_cons_eq hs⟩

end IsLabel

/-! ### Rows -/

section Rows

variable {row row' : Row} {rows rows' : List Row} {s s' : List Char}

/-- A row is its indentation, its label and a line feed. -/
theorem Row.toList_text (row : Row) : (row.text false).toList =
    List.replicate (2 * row.depth) ' ' ++ (row.label.toList ++ ['\n']) := by
  simp [Row.text]

/-- Rows are told apart: how deep they are by the spaces before their labels. -/
theorem Row.text_unique (h : IsLabel row.label.toList) (h' : IsLabel row'.label.toList)
    (he : (row.text false).toList ++ s = (row'.text false).toList ++ s') :
    row.bare = row'.bare ∧ s = s' := by
  simp only [toList_text, List.append_assoc, List.cons_append, List.nil_append] at he
  have hspaces : ∀ n, ∀ c ∈ List.replicate n ' ', (c == ' ') = true := by
    intro n c hc
    rw [List.eq_of_mem_replicate hc]
    rfl
  obtain ⟨hdepth, hrest⟩ := run_unique (hspaces _) (hspaces _) h.nextNot_space h'.nextNot_space he
  have hlength := congrArg List.length hdepth
  rw [List.length_replicate, List.length_replicate] at hlength
  obtain ⟨hlabel, hs⟩ := h.unique h' hrest
  refine ⟨?_, hs⟩
  rw [Row.bare, Row.bare, String.toList_injective hlabel]
  congr 1
  omega

/-- Row by row, by recursion. -/
theorem rows_unique : ∀ {rows rows' : List Row}, (∀ row ∈ rows, IsLabel row.label.toList) →
    (∀ row ∈ rows', IsLabel row.label.toList) →
    rows.flatMap (fun row => (row.text false).toList) =
      rows'.flatMap (fun row => (row.text false).toList) →
    rows.map Row.bare = rows'.map Row.bare
  | [], [], _, _, _ => rfl
  | [], row' :: _, _, _, he => by simp [Row.toList_text] at he
  | row :: _, [], _, _, he => by simp [Row.toList_text] at he
  | row :: rows, row' :: rows', h, h', he => by
    obtain ⟨hrow, hrows⟩ := List.forall_mem_cons.mp h
    obtain ⟨hrow', hrows'⟩ := List.forall_mem_cons.mp h'
    obtain ⟨hbare, hrest⟩ := Row.text_unique hrow hrow' he
    rw [List.map_cons, List.map_cons, hbare, rows_unique hrows hrows' hrest]

end Rows

/-! ### The labels of trees -/

/-- A word that a label can begin with. -/
def isLabelStart : List Char → Bool
  | [] => false
  | c :: cs => c != ' ' && c != 'S' && !(c :: cs).contains '\n'

section Labels

variable {lead rest : String}

/-- A label of a word and what stands behind it on the same line. -/
theorem IsLabel.append (hlead : isLabelStart lead.toList = true) (hrest : '\n' ∉ rest.toList) :
    IsLabel (lead ++ rest).toList := by
  rw [String.toList_append]
  cases hc : lead.toList with
  | nil => simp [hc, isLabelStart] at hlead
  | cons c cs =>
    rw [hc] at hlead
    simp only [isLabelStart, Bool.and_eq_true, bne_iff_ne, Bool.not_eq_true',
      List.contains_eq_mem, decide_eq_false_iff_not] at hlead
    obtain ⟨⟨hspace, hS⟩, hline⟩ := hlead
    refine .line hspace hS ?_
    show '\n' ∉ (c :: cs) ++ rest.toList
    rw [List.mem_append]
    exact not_or.mpr ⟨hline, hrest⟩

theorem IsLabel.word (lead : String) (hlead : isLabelStart lead.toList = true) :
    IsLabel lead.toList := by
  have hlabel : IsLabel (lead ++ "").toList := .append hlead (by simp)
  rwa [String.append_empty] at hlabel

/-- A name is written on one line. -/
theorem IsName.not_mem_newline {name : List Char} (h : IsName name) : '\n' ∉ name := by
  intro hmem
  exact absurd (h.2 _ hmem) (by decide)

theorem not_mem_newline_toString (n : Nat) : '\n' ∉ (toString n).toList := by
  rw [Nat.toString_eq_ofList_toDigits, String.toList_ofList]
  intro hmem
  exact absurd (Nat.isDigit_of_mem_toDigits (by decide) (by decide) hmem) (by decide)

theorem UnaryOp.isLabel (op : UnaryOp) : IsLabel ("Unary " ++ op.text).toList := by
  refine .append (by decide) ?_
  cases op <;> decide

theorem BinaryOp.isLabel (op : BinaryOp) :
    IsLabel ((if op.isLogical then "Logical " else "Binary ") ++ op.text).toList := by
  have hword : isLabelStart (if op.isLogical then "Logical " else "Binary ").toList = true := by
    cases op <;> decide
  refine .append hword ?_
  cases op <;> decide

end Labels

mutual

theorem Value.isLabel : ∀ (v : Value) (depth : Nat), v.WellFormed →
    ∀ row ∈ v.rows depth, IsLabel row.label.toList
  | .string content quote s, depth, hw => by
    have hlabel : IsLabel ("String ".toList ++ quote :: (content.toList ++ [quote])) :=
      .string hw.2
    simpa [Value.rows] using hlabel
  | .array items _, depth, hw =>
    List.forall_mem_cons.mpr ⟨.word "Array" (by decide), isLabel_itemRows items (depth + 1) hw⟩
  | .object members default _, depth, hw =>
    List.forall_mem_cons.mpr
      ⟨.word "Object" (by decide), isLabel_memberRows members default (depth + 1) hw.2.2⟩

/-- By recursion on the expression: each of its rows has such a label. -/
theorem Expr.isLabel : ∀ (e : Expr) (depth : Nat), e.WellFormed →
    ∀ row ∈ e.rows depth, IsLabel row.label.toList
  | .integer n _, _, _ =>
    List.forall_mem_singleton.mpr (.append (by decide) (not_mem_newline_toString n))
  | .ident _, _, hw => List.forall_mem_singleton.mpr (.append (by decide) hw.1.not_mem_newline)
  | .reference .variable _ _, _, hw =>
    List.forall_mem_singleton.mpr (.append (by decide) hw.not_mem_newline)
  | .reference .global _ _, _, hw =>
    List.forall_mem_singleton.mpr (.append (by decide) hw.not_mem_newline)
  | .this _, _, _ => List.forall_mem_singleton.mpr (.word "This" (by decide))
  | .value v, depth, hw => v.isLabel depth hw
  | .parenthesis inner _, depth, hw =>
    List.forall_mem_cons.mpr ⟨.word "Paren" (by decide), inner.isLabel (depth + 1) hw⟩
  | .call _ args _, depth, hw =>
    List.forall_mem_cons.mpr
      ⟨.append (by decide) hw.1.1.not_mem_newline, isLabel_itemRows args (depth + 1) hw.2⟩
  | .select .attribute _ key _, depth, hw =>
    List.forall_mem_cons.mpr
      ⟨.append (by decide) hw.1.1.not_mem_newline, key.isLabel (depth + 1) hw.2⟩
  | .select .member _ key _, depth, hw =>
    List.forall_mem_cons.mpr
      ⟨.append (by decide) hw.1.1.not_mem_newline, key.isLabel (depth + 1) hw.2⟩
  | .unary op arg _, depth, hw =>
    List.forall_mem_cons.mpr ⟨op.isLabel, arg.isLabel (depth + 1) hw.2⟩
  | .binary op left right _, depth, hw =>
    List.forall_mem_cons.mpr ⟨op.isLabel, List.forall_mem_append.mpr
      ⟨left.isLabel (depth + 1) hw.1.2, right.isLabel (depth + 1) hw.2.2⟩⟩
  | .conditional test consequent alternate _, depth, hw =>
    List.forall_mem_cons.mpr ⟨.word "Conditional" (by decide), List.forall_mem_append.mpr
      ⟨test.isLabel (depth + 1) hw.1.2, List.forall_mem_append.mpr
        ⟨consequent.isLabel (depth + 1) hw.2.1, alternate.isLabel (depth + 1) hw.2.2⟩⟩⟩

theorem isLabel_itemRows : ∀ (items : List Expr) (depth : Nat), WellFormedItems items →
    ∀ row ∈ itemRows depth items, IsLabel row.label.toList
  | [], _, _ => by simp [itemRows]
  | item :: items, depth, hw =>
    List.forall_mem_append.mpr ⟨item.isLabel depth hw.1, isLabel_itemRows items depth hw.2⟩

theorem isLabel_memberRows : ∀ (members : List (String × Expr)) (default : Option String)
    (depth : Nat), WellFormedMembers members →
    ∀ row ∈ memberRows default depth members, IsLabel row.label.toList
  | [], _, _, _ => by simp [memberRows]
  | (key, item) :: members, default, depth, hw => by
    have hlabel : IsLabel ("Key " ++ (if default = some key then "*" else "") ++ key).toList := by
      refine .append ?_ hw.1.1.not_mem_newline
      split <;> decide
    exact List.forall_mem_cons.mpr ⟨hlabel, List.forall_mem_append.mpr
      ⟨item.isLabel (depth + 1) hw.1.2, isLabel_memberRows members default depth hw.2⟩⟩

end

theorem isLabel_attributeRows {attributes : Option Attributes} (depth : Nat)
    (hw : ∀ entries : Attributes, attributes = some entries → entries.WellFormed) :
    ∀ row ∈ attributeRows depth attributes, IsLabel row.label.toList := by
  cases attributes with
  | none => simp [attributeRows]
  | some entries =>
    obtain ⟨-, -, hkey, hvalue⟩ := hw entries rfl
    intro row hrow
    obtain ⟨a, ha, hrow⟩ := List.mem_flatMap.mp hrow
    rcases List.mem_cons.mp hrow with rfl | hrow
    · exact .append (by decide) (hkey a ha).not_mem_newline
    · exact a.2.isLabel (depth + 1) (hvalue a ha) row hrow

/-- The parameters of a macro as they are shown: one, and each other one behind a comma. -/
theorem toList_parameters (p : Ident) (ps : List Ident) :
    (", ".intercalate ((p :: ps).map fun id => "$" ++ id.name)).toList =
      '$' :: (p.name.toList ++ ps.flatMap fun id => ',' :: ' ' :: '$' :: id.name.toList) := by
  rw [String.toList_intercalate]
  induction ps generalizing p with
  | nil => simp
  | cons q ps ih =>
    calc
      _ = '$' :: (p.name.toList ++ (", ".toList ++ ", ".toList.intercalate
          (((q :: ps).map fun id => "$" ++ id.name).map String.toList))) := by simp
      _ = _ := by rw [ih q]; simp

/-- The label of a macro is one line, since its names are. -/
theorem isLabel_macroDef {name : String} {parameters : List Ident} (hname : IsName name.toList)
    (hparameters : ∀ p ∈ parameters, IsName p.name.toList) :
    IsLabel ("Macro " ++ name ++ "(" ++
      ", ".intercalate (parameters.map fun id => "$" ++ id.name) ++ ")").toList := by
  have hlist : '\n' ∉ (", ".intercalate (parameters.map fun id => "$" ++ id.name)).toList := by
    cases parameters with
    | nil => simp
    | cons p ps =>
      obtain ⟨hp, hps⟩ := List.forall_mem_cons.mp hparameters
      rw [toList_parameters]
      simpa [hp.not_mem_newline] using fun q hq => (hps q hq).not_mem_newline
  simp only [String.append_assoc]
  refine .append (by decide) ?_
  simpa [hname.not_mem_newline] using hlist

/-- The rows of an entry, and those of its parts. -/
theorem Entry.isLabel {e : Entry} (hw : e.WellFormed) :
    ∀ row ∈ e.rows, IsLabel row.label.toList := by
  cases e with
  | entity e =>
    obtain ⟨hid, hindex, hvalue, hattributes⟩ := hw
    have hindexRows : ∀ row ∈ indexRows 2 e.index, IsLabel row.label.toList := by
      cases he : e.index with
      | none => simp [indexRows]
      | some items =>
        exact List.forall_mem_cons.mpr
          ⟨.word "Index" (by decide), isLabel_itemRows items 3 (hindex items he)⟩
    exact List.forall_mem_cons.mpr ⟨.append (by decide) hid.not_mem_newline,
      List.forall_mem_append.mpr ⟨List.forall_mem_append.mpr
        ⟨hindexRows, e.value.isLabel 2 hvalue⟩, isLabel_attributeRows 2 hattributes⟩⟩
  | macroDef m =>
    obtain ⟨hid, hparameters, hbody, hattributes⟩ := hw
    exact List.forall_mem_cons.mpr ⟨isLabel_macroDef hid hparameters, List.forall_mem_append.mpr
      ⟨m.body.isLabel 2 hbody, isLabel_attributeRows 2 hattributes⟩⟩

end LocaleText
