import LocaleText.Fault
import LocaleText.Resource

/-!
# Trees further on in a source

The same tree or the same fault, read some bytes further on: every span is moved by that distance,
and nothing else changes.

* `Span.shift` moves a span
* `Expr.shift`, `Value.shift`, `Entry.shift`, `Item.shift` and their companions move the spans of a
  tree
* `Fault.shift` moves the spans of a fault
* moving commutes with what readers build trees with: `Expr.join`, `Expr.choice` and `Keyed.insert`
-/

namespace LocaleText

/-! ### Spans and values -/

def Span.shift (k : Nat) (s : Span) : Span := ⟨s.start + k, s.stop + k⟩

def Ident.shift (k : Nat) (id : Ident) : Ident := ⟨id.name, id.span.shift k⟩

mutual

def Value.shift (k : Nat) : Value → Value
  | .string content quote span => .string content quote (span.shift k)
  | .array items span => .array (shiftItems k items) (span.shift k)
  | .object members key span => .object (shiftMembers k members) key (span.shift k)

def Expr.shift (k : Nat) : Expr → Expr
  | .integer value span => .integer value (span.shift k)
  | .ident id => .ident (id.shift k)
  | .reference scope id span => .reference scope (id.shift k) (span.shift k)
  | .this span => .this (span.shift k)
  | .value v => .value (v.shift k)
  | .parenthesis inner span => .parenthesis (inner.shift k) (span.shift k)
  | .call callee args span => .call (callee.shift k) (shiftItems k args) (span.shift k)
  | .select selection base key span => .select selection (base.shift k) (key.shift k) (span.shift k)
  | .unary op arg span => .unary op (arg.shift k) (span.shift k)
  | .binary op left right span => .binary op (left.shift k) (right.shift k) (span.shift k)
  | .conditional test consequent alternate span =>
    .conditional (test.shift k) (consequent.shift k) (alternate.shift k) (span.shift k)

def shiftItems (k : Nat) : List Expr → List Expr
  | [] => []
  | item :: items => item.shift k :: shiftItems k items

def shiftMembers (k : Nat) : List (String × Expr) → List (String × Expr)
  | [] => []
  | (key, item) :: members => (key, item.shift k) :: shiftMembers k members

end

def Attributes.shift (k : Nat) (attributes : Attributes) : Attributes :=
  attributes.map fun a => (a.1, a.2.shift k)

variable (k : Nat)

theorem shiftItems_eq_map (items : List Expr) : shiftItems k items = items.map (Expr.shift k) := by
  induction items with
  | nil => rfl
  | cons item items ih => rw [shiftItems, ih, List.map_cons]

@[simp] theorem Value.span_shift (v : Value) : (v.shift k).span = v.span.shift k := by
  cases v <;> rfl

@[simp] theorem Expr.span_shift (e : Expr) : (e.shift k).span = e.span.shift k := by
  cases e with
  | value v => exact v.span_shift k
  | _ => rfl

/-- Operands that are further on are joined further on. -/
theorem Expr.shift_join (op : BinaryOp) (left right : Expr) :
    (join op left right).shift k = join op (left.shift k) (right.shift k) := by
  simp only [join, Expr.shift, span_shift]
  rfl

theorem Expr.shift_choice (test consequent alternate : Expr) :
    (choice test consequent alternate).shift k =
      choice (test.shift k) (consequent.shift k) (alternate.shift k) := by
  simp only [choice, Expr.shift, span_shift]
  rfl

/-- Keys are not moved. -/
theorem shiftMembers_insert (key : String) (item : Expr) (members : Keyed Expr) :
    shiftMembers k (members.insert key item) =
      Keyed.insert key (item.shift k) (shiftMembers k members) := by
  induction members with
  | nil => rfl
  | cons member members ih =>
    obtain ⟨name, other⟩ := member
    by_cases h : name = key
    · simp only [Keyed.insert, shiftMembers, h, if_true]
    · simp only [Keyed.insert, shiftMembers, h, if_false, ih]

theorem Attributes.shift_insert (key : String) (value : Value) (attributes : Attributes) :
    Attributes.shift k (attributes.insert key value) =
      Keyed.insert key (value.shift k) (Attributes.shift k attributes) := by
  induction attributes with
  | nil => rfl
  | cons entry rest ih =>
    obtain ⟨name, other⟩ := entry
    simp only [Attributes.shift] at ih
    by_cases h : name = key
    · simp [Keyed.insert, Attributes.shift, h]
    · simp [Keyed.insert, Attributes.shift, h, ih]

/-! ### Entries -/

def Gap.shift (gap : Gap) : Gap := ⟨gap.text, gap.span.shift k⟩

def Entity.shift (e : Entity) : Entity :=
  ⟨e.id.shift k, e.index.map (shiftItems k), e.before.shift k, e.value.shift k, e.behind.shift k,
    e.attributes.map (Attributes.shift k), e.span.shift k⟩

def Macro.shift (m : Macro) : Macro :=
  ⟨m.id.shift k, m.parameters.map (Ident.shift k), m.body.shift k,
    m.attributes.map (Attributes.shift k), m.span.shift k⟩

def Entry.shift : Entry → Entry
  | .entity e => .entity (e.shift k)
  | .macroDef m => .macroDef (m.shift k)

def Item.shift : Item → Item
  | .entry e => .entry (e.shift k)
  | .gap blanks => .gap (blanks.shift k)

def Resource.shift (r : Resource) : Resource := ⟨r.body.map (Item.shift k), r.span.shift k⟩

/-! ### Faults -/

def Fault.shift (fault : Fault) : Fault :=
  ⟨fault.kind, fault.span.shift k, fault.detail,
    fault.note.map fun (note, span) => (note, span.shift k)⟩

/-- No distance. -/
theorem Fault.shift_zero (fault : Fault) : fault.shift 0 = fault := by
  obtain ⟨kind, span, detail, note⟩ := fault
  cases note <;> rfl

end LocaleText
