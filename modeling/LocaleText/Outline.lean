import LocaleText.Resource
import LocaleText.Text.Blank

/-!
# Outlines

An outline shows the tree of a resource in rows, each node indented by two spaces more than the node
that holds it. Spans and the blanks between entries are shown on demand.

* `Row` is one line of an outline before it is text
* `Value.rows`, `Expr.rows` and `Entry.rows` are the rows of the nodes
* `Resource.outline` is the text
-/

namespace LocaleText

/-- One line of an outline: how deep it is indented, what it says, and the span of its node. -/
structure Row where
  depth : Nat
  label : String
  span : Option Span
  deriving DecidableEq, Repr, Inhabited

/-- How a span is written behind a label. -/
def Span.suffix (s : Span) : String := s!" @{s.start}..{s.stop}"

/-- A row as a line of text, its span shown or left out. -/
def Row.text (spans : Bool) (row : Row) : String :=
  let shown := if spans then row.span.elim "" Span.suffix else ""
  String.ofList (List.replicate (2 * row.depth) ' ') ++ row.label ++ shown ++ "\n"

def UnaryOp.text (op : UnaryOp) : String := op.token.toString

def BinaryOp.text (op : BinaryOp) : String := String.ofList op.token

mutual

/-- The rows of a value, the first at the given depth. -/
def Value.rows (depth : Nat) : Value → List Row
  | .string content quote s =>
    [⟨depth, "String " ++ quote.toString ++ content ++ quote.toString, some s⟩]
  | .array items s => ⟨depth, "Array", some s⟩ :: itemRows (depth + 1) items
  | .object members default s => ⟨depth, "Object", some s⟩ :: memberRows default (depth + 1) members

/-- The rows of an expression, the first at the given depth. -/
def Expr.rows (depth : Nat) : Expr → List Row
  | .integer n s => [⟨depth, "Integer " ++ toString n, some s⟩]
  | .ident id => [⟨depth, "Ident " ++ id.name, some id.span⟩]
  | .reference .variable id s => [⟨depth, "Variable $" ++ id.name, some s⟩]
  | .reference .global id s => [⟨depth, "Global @" ++ id.name, some s⟩]
  | .this s => [⟨depth, "This", some s⟩]
  | .value v => v.rows depth
  | .parenthesis inner s => ⟨depth, "Paren", some s⟩ :: inner.rows (depth + 1)
  | .call callee args s => ⟨depth, "Call " ++ callee.name, some s⟩ :: itemRows (depth + 1) args
  | .select .attribute base key s =>
    ⟨depth, "Attribute " ++ base.name, some s⟩ :: key.rows (depth + 1)
  | .select .member base key s => ⟨depth, "Member " ++ base.name, some s⟩ :: key.rows (depth + 1)
  | .unary op arg s => ⟨depth, "Unary " ++ op.text, some s⟩ :: arg.rows (depth + 1)
  | .binary op left right s =>
    ⟨depth, (if op.isLogical then "Logical " else "Binary ") ++ op.text, some s⟩
      :: (left.rows (depth + 1) ++ right.rows (depth + 1))
  | .conditional test consequent alternate s =>
    ⟨depth, "Conditional", some s⟩
      :: (test.rows (depth + 1) ++ (consequent.rows (depth + 1) ++ alternate.rows (depth + 1)))

def itemRows (depth : Nat) : List Expr → List Row
  | [] => []
  | item :: items => item.rows depth ++ itemRows depth items

/-- The rows of the members of an object; a star stands before the default key. -/
def memberRows (default : Option String) (depth : Nat) : List (String × Expr) → List Row
  | [] => []
  | (key, item) :: members =>
    ⟨depth, "Key " ++ (if default = some key then "*" else "") ++ key, none⟩
      :: (item.rows (depth + 1) ++ memberRows default depth members)

end

def attributeRows (depth : Nat) (attributes : Option Attributes) : List Row :=
  (attributes.getD []).flatMap fun (key, value) =>
    ⟨depth, "Attr " ++ key, none⟩ :: value.rows (depth + 1)

def indexRows (depth : Nat) : Option (List Expr) → List Row
  | none => []
  | some items => ⟨depth, "Index", none⟩ :: itemRows (depth + 1) items

def Entry.rows : Entry → List Row
  | .entity e =>
    ⟨1, "Entity " ++ e.id.name, some e.span⟩
      :: (indexRows 2 e.index ++ e.value.rows 2 ++ attributeRows 2 e.attributes)
  | .macroDef m =>
    ⟨1, "Macro " ++ m.id.name ++ "(" ++
        ", ".intercalate (m.parameters.map fun id => "$" ++ id.name) ++ ")", some m.span⟩
      :: (m.body.rows 2 ++ attributeRows 2 m.attributes)

namespace Resource

/-- The rows of a resource, with or without those of the blanks between entries. -/
def rows (blanks : Bool) (r : Resource) : List Row :=
  ⟨0, "Resource", some r.span⟩ :: r.body.flatMap fun
    | .entry e => e.rows
    | .gap g => if blanks then [⟨1, "Whitespace " ++ quoteBlanks g.text, some g.span⟩] else []

def outline (spans blanks : Bool) (r : Resource) : String :=
  String.join ((r.rows blanks).map (Row.text spans))

end Resource

end LocaleText
