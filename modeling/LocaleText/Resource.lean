import LocaleText.Expr

/-!
# Resources

A resource is a sequence of entries with blanks between them: entities, which give a name a value,
and macros, which give a name an expression with parameters. Both may carry attributes.

* `Entity`, `Macro` and `Entry` are the entries
* `Resource.body` holds entries and blanks in the order of the source
* `Resource.get?` finds the entry that a name stands for: the last one defined
* `Resource.fragments` cuts the source into the texts of the items
-/

namespace LocaleText

/-- A run of blanks, maybe of none. -/
structure Gap where
  text : String
  span : Span
  deriving DecidableEq, Repr, Inhabited

/-- The attributes of an entry, in the order of their keys. -/
abbrev Attributes := Keyed Value

/-- `<id[index] value attributes>` -/
structure Entity where
  id : Ident
  index : Option (List Expr)
  /-- The blanks before the value. -/
  before : Gap
  value : Value
  /-- The blanks behind the value. -/
  behind : Gap
  /-- Present when at least one attribute is written. -/
  attributes : Option Attributes
  span : Span
  deriving Inhabited

/-- `<id($parameter, ...) { body } attributes>` -/
structure Macro where
  id : Ident
  /-- The parameters; their spans leave out the sign before the name. -/
  parameters : List Ident
  body : Expr
  attributes : Option Attributes
  span : Span
  deriving Inhabited

/-- A definition. -/
inductive Entry
  | entity (entity : Entity)
  | macroDef (definition : Macro)

namespace Entry

def id : Entry → Ident
  | entity e => e.id
  | macroDef m => m.id

def span : Entry → Span
  | entity e => e.span
  | macroDef m => m.span

end Entry

/-- One piece of a resource. -/
inductive Item
  | entry (entry : Entry)
  | gap (gap : Gap)

def Item.span : Item → Span
  | .entry e => e.span
  | .gap g => g.span

/-- The tree of a whole source. -/
structure Resource where
  body : List Item
  span : Span

namespace Resource

def entries (r : Resource) : List Entry :=
  r.body.filterMap fun
    | .entry e => some e
    | .gap _ => none

def entities (r : Resource) : List Entity :=
  r.entries.filterMap fun
    | .entity e => some e
    | _ => none

/-- The entry that a name stands for: the last with that name, since a later entry hides an
earlier one. -/
def get? (r : Resource) (name : String) : Option Entry :=
  (r.entries.filter fun e => e.id.name = name).getLast?

/-- The text of each item, cut out of the source. -/
def fragments (r : Resource) (source : String) : List String :=
  r.body.map fun item => String.ofList (item.span.slice source.toList)

end Resource

end LocaleText
