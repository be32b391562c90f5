import LocaleText.Fault
import LocaleText.Json
import LocaleText.Resource

/-!
# Resources and errors as JSON

The form in which other programs receive a tree or an error. Every node is an object that ends with
its byte range; optional parts that are absent are `null`. The fields stand in a fixed order, which
is that in which the parts of a node are listed in its type.

* `Value.toJson`, `Expr.toJson` and `Entry.toJson` are the nodes
* `Resource.toJson` is the whole tree
* `SyntaxError.toJson` is an error; it has the field `related` only when a second span is shown
-/

namespace LocaleText

/-- A span as the pair of its ends. -/
def Span.toJson (s : Span) : Json := .array [.number s.start, .number s.stop]

/-- The last field of every node. -/
def Span.field (s : Span) : String × Json := ("range", s.toJson)

def Ident.toJson (id : Ident) : Json := .object [("name", .string id.name), id.span.field]

def Gap.toJson (gap : Gap) : Json := .object [("text", .string gap.text), gap.span.field]

def UnaryOp.name : UnaryOp → String
  | .not => "Not"
  | .plus => "Plus"
  | .minus => "Minus"

def BinaryOp.name : BinaryOp → String
  | .or => "Or"
  | .and => "And"
  | .eq => "Eq"
  | .notEq => "NotEq"
  | .lt => "Lt"
  | .gt => "Gt"
  | .ltEq => "LtEq"
  | .gtEq => "GtEq"
  | .add => "Add"
  | .sub => "Sub"
  | .mul => "Mul"
  | .div => "Div"
  | .rem => "Rem"

/-- The field that tells the forms of an expression apart. -/
def kindField (name : String) : String × Json := ("kind", .string name)

mutual

def Value.fields : Value → List (String × Json)
  | .string content quote s =>
    [("type", .string "String"), ("content", .string content), ("quote", .string quote.toString),
     s.field]
  | .array items s => [("type", .string "Array"), ("items", .array (jsonItems items)), s.field]
  | .object members default s =>
    [("type", .string "Object"), ("members", .object (jsonMembers members)),
     ("default", default.elim .null .string), s.field]

def Expr.toJson : Expr → Json
  | .integer n s => .object [kindField "Integer", ("value", .number n), s.field]
  | .ident id => .object [kindField "Identifier", ("name", .string id.name), id.span.field]
  | .reference .variable id s => .object [kindField "Variable", ("id", id.toJson), s.field]
  | .reference .global id s => .object [kindField "Global", ("id", id.toJson), s.field]
  | .this s => .object [kindField "This", s.field]
  | .value v => .object (kindField "Value" :: v.fields)
  | .parenthesis inner s => .object [kindField "Parenthesis", ("inner", inner.toJson), s.field]
  | .call callee args s =>
    .object [kindField "Call", ("callee", callee.toJson), ("args", .array (jsonItems args)),
      s.field]
  | .select .attribute base key s =>
    .object [kindField "Attribute", ("base", base.toJson), ("key", key.toJson), s.field]
  | .select .member base key s =>
    .object [kindField "Member", ("base", base.toJson), ("index", key.toJson), s.field]
  | .unary op arg s =>
    .object [kindField "Unary", ("op", .string op.name), ("arg", arg.toJson), s.field]
  | .binary op left right s =>
    .object [kindField (if op.isLogical then "Logical" else "Binary"), ("op", .string op.name),
      ("left", left.toJson), ("right", right.toJson), s.field]
  | .conditional test consequent alternate s =>
    .object [kindField "Conditional", ("test", test.toJson), ("consequent", consequent.toJson),
      ("alternate", alternate.toJson), s.field]

def jsonItems : List Expr → List Json
  | [] => []
  | item :: items => item.toJson :: jsonItems items

/-- Members under their keys. -/
def jsonMembers : List (String × Expr) → List (String × Json)
  | [] => []
  | (key, item) :: members => (key, item.toJson) :: jsonMembers members

end

def Value.toJson (v : Value) : Json := .object v.fields

def jsonAttributes (attributes : Option Attributes) : Json :=
  attributes.elim .null fun entries => .object (entries.map fun (key, value) => (key, value.toJson))

/-- An entry as an item of a resource. -/
def Entry.toJson : Entry → Json
  | .entity e =>
    .object [("type", .string "Entry"), kindField "Entity", ("id", e.id.toJson),
      ("index", e.index.elim .null fun items => .array (jsonItems items)),
      ("ws_before_value", e.before.toJson), ("value", e.value.toJson),
      ("ws_after_value", e.behind.toJson), ("attrs", jsonAttributes e.attributes), e.span.field]
  | .macroDef m =>
    .object [("type", .string "Entry"), kindField "Macro", ("id", m.id.toJson),
      ("params", .array (m.parameters.map Ident.toJson)), ("body", m.body.toJson),
      ("attrs", jsonAttributes m.attributes), m.span.field]

def Item.toJson : Item → Json
  | .entry e => e.toJson
  | .gap g => .object [("type", .string "Whitespace"), ("text", .string g.text), g.span.field]

def Resource.toJson (r : Resource) : Json :=
  .object [("body", .array (r.body.map Item.toJson)), r.span.field]

def Place.toJson (p : Place) : Json :=
  .object [("line", .number p.line), ("column", .number p.column)]

def SyntaxError.toJson (e : SyntaxError) : Json :=
  .object ([("kind", .string e.kind.name), e.span.field, ("position", e.place.toJson),
      ("message", .string e.message)] ++
    (e.related.map fun related =>
      ("related", .object [related.span.field, ("message", .string related.message)])).toList)

end LocaleText
