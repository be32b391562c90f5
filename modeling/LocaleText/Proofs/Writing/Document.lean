import LocaleText.CommandLine.Run
import LocaleText.Proofs.Writing.Json

/-!
# The JSON form of a tree tells the tree

Nothing of a tree is lost in its JSON form: spans and recorded blanks, absent parts and empty ones,
the forms of nodes and the order of keys can all be found in it again.

* `formOf_kind?` says that the kind that is written first tells the form of an expression, and
  `Expr.form_eq` that two expressions written alike have one form
* `Expr.toJson_inj` and `Value.fields_inj` are the induction on the first of two trees, whose form
  is that of the second tree
* `Entry.toJson_inj`, `Item.toJson_inj` and `Resource.toJson_inj` put the parts together
* `Resource.show_json_eq_iff` is the result for what is shown of a tree
-/

namespace LocaleText

/-! ### Spans, names and operators -/

@[simp] theorem Span.field_inj {s s' : Span} : s.field = s'.field ↔ s = s' := by
  obtain ⟨start, stop⟩ := s
  obtain ⟨start', stop'⟩ := s'
  simp [Span.field, Span.toJson]

@[simp] theorem Ident.toJson_inj {id id' : Ident} : id.toJson = id'.toJson ↔ id = id' := by
  obtain ⟨name, s⟩ := id
  obtain ⟨name', s'⟩ := id'
  simp [Ident.toJson]

@[simp] theorem Gap.toJson_inj {gap gap' : Gap} : gap.toJson = gap'.toJson ↔ gap = gap' := by
  obtain ⟨text, s⟩ := gap
  obtain ⟨text', s'⟩ := gap'
  simp [Gap.toJson]

def UnaryOp.ofName? (name : String) : Option UnaryOp :=
  [not, plus, minus].find? fun op => op.name = name

theorem UnaryOp.ofName?_name (op : UnaryOp) : ofName? op.name = some op := by
  cases op <;> rfl

@[simp] theorem UnaryOp.name_inj {op op' : UnaryOp} : op.name = op'.name ↔ op = op' := by
  refine ⟨fun h => ?_, congrArg name⟩
  rw [← Option.some.injEq, ← ofName?_name op, h, ofName?_name]

def BinaryOp.ofName? (name : String) : Option BinaryOp :=
  levels.flatten.find? fun op => op.name = name

theorem BinaryOp.ofName?_name (op : BinaryOp) : ofName? op.name = some op := by
  cases op <;> rfl

@[simp] theorem BinaryOp.name_inj {op op' : BinaryOp} : op.name = op'.name ↔ op = op' := by
  refine ⟨fun h => ?_, congrArg name⟩
  rw [← Option.some.injEq, ← ofName?_name op, h, ofName?_name]

/-! ### Values and expressions -/

/-- An absent text is written in another way than an empty one. -/
theorem Json.elim_string_inj : ∀ {text text' : Option String},
    text.elim null string = text'.elim null string → text = text'
  | none, none, _ => rfl
  | none, some _, h => nomatch h
  | some _, none, h => nomatch h
  | some _, some _, h => congrArg some (Json.string.inj h)

/-- The text of the first field of a document. -/
def Json.kind? : Json → Option String
  | .object ((_, .string kind) :: _) => some kind
  | _ => none

namespace Expr

/-- The kinds of expressions, by the form that is written with them. -/
def kinds : List (List String) :=
  [["Integer"], ["Identifier"], ["Variable", "Global"], ["This"], ["Value"], ["Parenthesis"],
   ["Call"], ["Attribute", "Member"], ["Unary"], ["Binary", "Logical"], ["Conditional"]]

/-- The place of the form that is written with a kind. -/
def formOf (kind : String) : Nat := kinds.findIdx fun names => names.contains kind

/-- The kind that is written first tells the form. -/
theorem formOf_kind? (e : Expr) : e.toJson.kind?.map formOf = some e.ctorIdx := by
  cases e with
  | reference scope => cases scope <;> rfl
  | select selection => cases selection <;> rfl
  | binary op => cases op <;> rfl
  | _ => rfl

/-- Expressions of the same document have the same form. -/
theorem form_eq {e e' : Expr} (h : e.toJson = e'.toJson) : e.ctorIdx = e'.ctorIdx := by
  rw [← Option.some.injEq, ← e.formOf_kind?, h, e'.formOf_kind?]

end Expr

mutual

theorem Value.fields_inj : ∀ v v' : Value, v.fields = v'.fields → v = v'
  | .string content quote s, v', h => by
    cases v' with
    | string content' quote' s' =>
      simp only [Value.fields, List.cons.injEq, Prod.mk.injEq, Json.string.injEq, true_and,
        Span.field_inj, and_true] at h
      obtain ⟨rfl, hquote, rfl⟩ := h
      rw [String.singleton_inj.mp hquote]
    | _ => simp [Value.fields] at h
  | .array items s, v', h => by
    cases v' with
    | array items' s' =>
      simp only [Value.fields, List.cons.injEq, Prod.mk.injEq, Json.array.injEq, true_and,
        Span.field_inj, and_true] at h
      obtain ⟨hitems, rfl⟩ := h
      rw [jsonItems_inj items items' hitems]
    | _ => simp [Value.fields] at h
  | .object members default s, v', h => by
    cases v' with
    | object members' default' s' =>
      simp only [Value.fields, List.cons.injEq, Prod.mk.injEq, Json.object.injEq, true_and,
        Span.field_inj, and_true] at h
      obtain ⟨hmembers, hdefault, rfl⟩ := h
      rw [jsonMembers_inj members members' hmembers, Json.elim_string_inj hdefault]
    | _ => simp [Value.fields] at h

/-- By recursion on the first tree. The second one has the same form, and its parts are written
alike. -/
theorem Expr.toJson_inj : ∀ e e' : Expr, e.toJson = e'.toJson → e = e'
  | .integer n s, e', h => by
    cases e' with
    | integer n' s' => simpa [Expr.toJson] using h
    | _ => nomatch Expr.form_eq h
  | .ident id, e', h => by
    cases e' with
    | ident id' =>
      obtain ⟨name, s⟩ := id
      obtain ⟨name', s'⟩ := id'
      simpa [Expr.toJson] using h
    | _ => nomatch Expr.form_eq h
  | .reference scope id s, e', h => by
    cases e' with
    | reference scope' id' s' =>
      cases scope <;> cases scope' <;> simp_all [Expr.toJson, kindField]
    | _ => nomatch Expr.form_eq h
  | .this s, e', h => by
    cases e' with
    | this s' => simpa [Expr.toJson] using h
    | _ => nomatch Expr.form_eq h
  | .value v, e', h => by
    cases e' with
    | value v' =>
      simp only [Expr.toJson, Json.object.injEq, List.cons.injEq, true_and] at h
      rw [Value.fields_inj v v' h]
    | _ => nomatch Expr.form_eq h
  | .parenthesis inner s, e', h => by
    cases e' with
    | parenthesis inner' s' =>
      simp only [Expr.toJson, Json.object.injEq, List.cons.injEq, Prod.mk.injEq, true_and,
        Span.field_inj, and_true] at h
      obtain ⟨hinner, rfl⟩ := h
      rw [Expr.toJson_inj inner inner' hinner]
    | _ => nomatch Expr.form_eq h
  | .call callee args s, e', h => by
    cases e' with
    | call callee' args' s' =>
      simp only [Expr.toJson, Json.object.injEq, List.cons.injEq, Prod.mk.injEq, true_and,
        Json.array.injEq, Ident.toJson_inj, Span.field_inj, and_true] at h
      obtain ⟨rfl, hargs, rfl⟩ := h
      rw [jsonItems_inj args args' hargs]
    | _ => nomatch Expr.form_eq h
  | .select selection base key s, e', h => by
    cases e' with
    | select selection' base' key' s' =>
      obtain ⟨rfl, rfl, hkey, rfl⟩ :
          selection = selection' ∧ base = base' ∧ key.toJson = key'.toJson ∧ s = s' := by
        cases selection <;> cases selection' <;> simp_all [Expr.toJson, kindField]
      rw [Expr.toJson_inj key key' hkey]
    | _ => nomatch Expr.form_eq h
  | .unary op arg s, e', h => by
    cases e' with
    | unary op' arg' s' =>
      simp only [Expr.toJson, Json.object.injEq, List.cons.injEq, Prod.mk.injEq, true_and,
        Json.string.injEq, UnaryOp.name_inj, Span.field_inj, and_true] at h
      obtain ⟨rfl, harg, rfl⟩ := h
      rw [Expr.toJson_inj arg arg' harg]
    | _ => nomatch Expr.form_eq h
  | .binary op left right s, e', h => by
    cases e' with
    | binary op' left' right' s' =>
      simp only [Expr.toJson, Json.object.injEq, List.cons.injEq, Prod.mk.injEq, true_and,
        Json.string.injEq, BinaryOp.name_inj, Span.field_inj, and_true] at h
      obtain ⟨-, rfl, hleft, hright, rfl⟩ := h
      rw [Expr.toJson_inj left left' hleft, Expr.toJson_inj right right' hright]
    | _ => nomatch Expr.form_eq h
  | .conditional test consequent alternate s, e', h => by
    cases e' with
    | conditional test' consequent' alternate' s' =>
      simp only [Expr.toJson, Json.object.injEq, List.cons.injEq, Prod.mk.injEq, true_and,
        Span.field_inj, and_true] at h
      obtain ⟨htest, hconsequent, halternate, rfl⟩ := h
      rw [Expr.toJson_inj test test' htest, Expr.toJson_inj consequent consequent' hconsequent,
        Expr.toJson_inj alternate alternate' halternate]
    | _ => nomatch Expr.form_eq h

theorem jsonItems_inj : ∀ items items' : List Expr, jsonItems items = jsonItems items' →
    items = items'
  | [], [], _ => rfl
  | [], _ :: _, h => by simp [jsonItems] at h
  | _ :: _, [], h => by simp [jsonItems] at h
  | item :: items, item' :: items', h => by
    simp only [jsonItems, List.cons.injEq] at h
    rw [Expr.toJson_inj item item' h.1, jsonItems_inj items items' h.2]

theorem jsonMembers_inj : ∀ members members' : List (String × Expr),
    jsonMembers members = jsonMembers members' → members = members'
  | [], [], _ => rfl
  | [], _ :: _, h => by simp [jsonMembers] at h
  | _ :: _, [], h => by simp [jsonMembers] at h
  | (key, item) :: members, (key', item') :: members', h => by
    simp only [jsonMembers, List.cons.injEq, Prod.mk.injEq] at h
    rw [h.1.1, Expr.toJson_inj item item' h.1.2, jsonMembers_inj members members' h.2]

end

/-! ### Entries and resources -/

/-- Absent attributes are not written as empty ones. -/
theorem jsonAttributes_inj {attributes attributes' : Option Attributes}
    (h : jsonAttributes attributes = jsonAttributes attributes') : attributes = attributes' := by
  have hinj : ∀ entry entry' : String × Value,
      (entry.1, entry.2.toJson) = (entry'.1, entry'.2.toJson) → entry = entry' := by
    intro (key, v) (key', v') he
    obtain ⟨hkey, hv⟩ := Prod.mk.inj he
    exact Prod.ext hkey (Value.fields_inj v v' (Json.object.inj hv))
  cases attributes with
  | none =>
    cases attributes' with
    | none => rfl
    | some => nomatch h
  | some attributes =>
    cases attributes' with
    | none => nomatch h
    | some attributes' => exact congrArg some (List.map_injective_iff.mpr hinj (Json.object.inj h))

theorem jsonIndex_inj : ∀ {index index' : Option (List Expr)},
    index.elim .null (fun items => Json.array (jsonItems items)) =
      index'.elim .null (fun items => Json.array (jsonItems items)) → index = index'
  | none, none, _ => rfl
  | none, some _, h => nomatch h
  | some _, none, h => nomatch h
  | some items, some items', h => congrArg some (jsonItems_inj items items' (Json.array.inj h))

theorem Entry.toJson_inj {e e' : Entry} (h : e.toJson = e'.toJson) : e = e' := by
  cases e with
  | entity e =>
    cases e' with
    | entity e' =>
      obtain ⟨id, index, before, value, behind, attributes, s⟩ := e
      obtain ⟨id', index', before', value', behind', attributes', s'⟩ := e'
      simp only [Entry.toJson, Json.object.injEq, List.cons.injEq, Prod.mk.injEq, true_and,
        Ident.toJson_inj, Gap.toJson_inj, Span.field_inj, and_true] at h
      obtain ⟨rfl, hindex, rfl, hvalue, rfl, hattributes, rfl⟩ := h
      rw [jsonIndex_inj hindex, Value.fields_inj value value' (Json.object.inj hvalue),
        jsonAttributes_inj hattributes]
    | macroDef m' => simp [Entry.toJson, kindField] at h
  | macroDef m =>
    cases e' with
    | entity e' => simp [Entry.toJson, kindField] at h
    | macroDef m' =>
      obtain ⟨id, parameters, body, attributes, s⟩ := m
      obtain ⟨id', parameters', body', attributes', s'⟩ := m'
      simp only [Entry.toJson, Json.object.injEq, List.cons.injEq, Prod.mk.injEq, true_and,
        Json.array.injEq, Ident.toJson_inj, Span.field_inj, and_true] at h
      obtain ⟨rfl, hparameters, hbody, hattributes, rfl⟩ := h
      have hids : Function.Injective Ident.toJson := fun id id' => Ident.toJson_inj.mp
      rw [List.map_injective_iff.mpr hids hparameters, Expr.toJson_inj body body' hbody,
        jsonAttributes_inj hattributes]

/-- The type that is written first tells entries from blanks. -/
theorem Item.toJson_inj {item item' : Item} (h : item.toJson = item'.toJson) : item = item' := by
  cases item with
  | entry e =>
    cases item' with
    | entry e' => rw [Entry.toJson_inj h]
    | gap g' => cases e <;> simp [Item.toJson, Entry.toJson] at h
  | gap g =>
    cases item' with
    | entry e' => cases e' <;> simp [Item.toJson, Entry.toJson] at h
    | gap g' =>
      obtain ⟨text, s⟩ := g
      obtain ⟨text', s'⟩ := g'
      simpa [Item.toJson] using h

/-- Item by item, and the span. -/
theorem Resource.toJson_inj {r r' : Resource} (h : r.toJson = r'.toJson) : r = r' := by
  obtain ⟨body, s⟩ := r
  obtain ⟨body', s'⟩ := r'
  simp only [Resource.toJson, Json.object.injEq, List.cons.injEq, Prod.mk.injEq, true_and,
    Json.array.injEq, Span.field_inj, and_true] at h
  obtain ⟨hbody, rfl⟩ := h
  have hitems : Function.Injective Item.toJson := fun item item' => Item.toJson_inj
  rw [List.map_injective_iff.mpr hitems hbody]

/-- Two trees are shown as the same JSON text only if they are the same tree, be they read from a
source or not. -/
theorem Resource.show_json_eq_iff (r r' : Resource) :
    CommandLine.View.json.show r = CommandLine.View.json.show r' ↔ r = r' := by
  refine ⟨fun h => ?_, congrArg _⟩
  have hpretty : r.toJson.pretty = r'.toJson.pretty := (String.append_left_inj "\n").mp h
  exact Resource.toJson_inj (Json.pretty_injective hpretty)

end LocaleText
