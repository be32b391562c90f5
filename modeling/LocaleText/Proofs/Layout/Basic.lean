import LocaleText.Proofs.Grammar.Basic

/-!
# Trees and their layouts

Which trees can be written at all, and which texts write a tree. Neither depends on spans, offsets
or levels of the grammar: precedence is a property of the tree, and a layout follows the tree.

* `Expr.rank` is how tightly the operator at the root of an expression binds
* `Entry.WellFormed` and its companions say when names, strings, integers, keys and operators of a
  tree can be written
* `Entry.bare` and its companions leave out the spans and the recorded blanks
* `ExprLayout`, `EntryLayout`, `BodyLayout` and their companions are the texts that write a tree, with
  any blanks between the tokens
-/

namespace LocaleText

/-! ### Well-formed trees -/

/-- How tightly the root of an expression binds: a choice the loosest, operands the tightest. -/
def Expr.rank : Expr → Nat
  | .conditional .. => 0
  | .binary op .. => op.rank
  | .unary .. => 7
  | _ => 8

/-- A name that can be told from an integer. -/
def IsOperandName (name : List Char) : Prop := IsName name ∧ NextNot Char.isDigit name

mutual

/-- A value that can be written. -/
def Value.WellFormed : Value → Prop
  | .string content quote _ => isQuote quote = true ∧ StringContent quote 0 content.toList
  | .array items _ => WellFormedItems items
  | .object members default _ =>
    (members.map Prod.fst).Nodup ∧ (∀ key, default = some key → key ∈ members.map Prod.fst) ∧
      WellFormedMembers members

/-- An expression that can be written without further parentheses. -/
def Expr.WellFormed : Expr → Prop
  | .integer value _ => value < integerBound
  | .ident id => IsOperandName id.name.toList
  | .reference _ id _ => IsName id.name.toList
  | .this _ => True
  | .value v => v.WellFormed
  | .parenthesis inner _ => inner.WellFormed
  | .call callee args _ => IsOperandName callee.name.toList ∧ WellFormedItems args
  | .select _ base key _ => IsOperandName base.name.toList ∧ key.WellFormed
  | .unary _ arg _ => 7 ≤ arg.rank ∧ arg.WellFormed
  | .binary op left right _ =>
    (op.rank ≤ left.rank ∧ left.WellFormed) ∧ op.rank < right.rank ∧ right.WellFormed
  | .conditional test consequent alternate _ =>
    (0 < test.rank ∧ test.WellFormed) ∧ consequent.WellFormed ∧ alternate.WellFormed

def WellFormedItems : List Expr → Prop
  | [] => True
  | item :: items => item.WellFormed ∧ WellFormedItems items

/-- Members of an object each of which can be written. -/
def WellFormedMembers : List (String × Expr) → Prop
  | [] => True
  | (key, item) :: members =>
    (IsName key.toList ∧ item.WellFormed) ∧ WellFormedMembers members

end

/-- Attributes that can be written: at least one, and no key twice. -/
structure Attributes.WellFormed (attributes : Attributes) : Prop where
  nonempty : attributes ≠ []
  nodup : (attributes.map Prod.fst).Nodup
  key : ∀ a ∈ attributes, IsName a.1.toList
  value : ∀ a ∈ attributes, a.2.WellFormed

/-- An entity that can be written. -/
structure Entity.WellFormed (e : Entity) : Prop where
  id : IsName e.id.name.toList
  index : ∀ items, e.index = some items → WellFormedItems items
  value : e.value.WellFormed
  attributes : ∀ attributes : Attributes, e.attributes = some attributes → attributes.WellFormed

/-- A macro that can be written. -/
structure Macro.WellFormed (m : Macro) : Prop where
  id : IsName m.id.name.toList
  parameters : ∀ p ∈ m.parameters, IsName p.name.toList
  body : m.body.WellFormed
  attributes : ∀ attributes : Attributes, m.attributes = some attributes → attributes.WellFormed

def Entry.WellFormed : Entry → Prop
  | .entity e => e.WellFormed
  | .macroDef m => m.WellFormed

def Resource.WellFormed (r : Resource) : Prop := ∀ e ∈ r.entries, e.WellFormed

/-! ### Trees without spans -/

def Ident.bare (id : Ident) : Ident := ⟨id.name, default⟩

mutual

def Value.bare : Value → Value
  | .string content quote _ => .string content quote default
  | .array items _ => .array (bareItems items) default
  | .object members key _ => .object (bareMembers members) key default

def Expr.bare : Expr → Expr
  | .integer value _ => .integer value default
  | .ident id => .ident id.bare
  | .reference scope id _ => .reference scope id.bare default
  | .this _ => .this default
  | .value v => .value v.bare
  | .parenthesis inner _ => .parenthesis inner.bare default
  | .call callee args _ => .call callee.bare (bareItems args) default
  | .select selection base key _ => .select selection base.bare key.bare default
  | .unary op arg _ => .unary op arg.bare default
  | .binary op left right _ => .binary op left.bare right.bare default
  | .conditional test consequent alternate _ =>
    .conditional test.bare consequent.bare alternate.bare default

def bareItems : List Expr → List Expr
  | [] => []
  | item :: items => item.bare :: bareItems items

def bareMembers : List (String × Expr) → List (String × Expr)
  | [] => []
  | (key, item) :: members => (key, item.bare) :: bareMembers members

end

def Attributes.bare (attributes : Attributes) : Attributes :=
  attributes.map fun a => (a.1, a.2.bare)

/-- An entity without spans and without the blanks around its value. -/
def Entity.bare (e : Entity) : Entity :=
  ⟨e.id.bare, e.index.map bareItems, default, e.value.bare, default,
    e.attributes.map Attributes.bare, default⟩

def Macro.bare (m : Macro) : Macro :=
  ⟨m.id.bare, m.parameters.map Ident.bare, m.body.bare, m.attributes.map Attributes.bare, default⟩

/-- An entry without spans and recorded blanks. -/
def Entry.bare : Entry → Entry
  | .entity e => .entity e.bare
  | .macroDef m => .macroDef m.bare

/-! ### Layouts of values and expressions -/

/-- The texts that write a name: as it is, behind a quote, or between two quotes of a kind. -/
inductive NameLayout : List Char → String → Ending → Prop
  | bare {name : String} : NameLayout name.toList name .word
  | opened {name : String} {quote : Char} : isQuote quote = true →
      NameLayout (quote :: name.toList) name (.opened quote)
  | quoted {name : String} {quote : Char} : isQuote quote = true →
      NameLayout (quote :: (name.toList ++ [quote])) name .closed

/-- The texts that write a key with the colon behind it. -/
inductive KeyLayout : List Char → String → Prop
  | mk {key gap gap' : List Char} {name : String} {ending : Ending} :
      NameLayout key name ending → Blanks gap → Blanks gap' →
      KeyLayout (key ++ gap ++ [':'] ++ gap') name

/-- The mark before a key of an object whose default key is given. -/
def markOf (default : Option String) (key : String) : List Char :=
  if default = some key then ['*'] else []

mutual

/-- The texts that write a value. -/
inductive ValueLayout : List Char → Value → Prop
  | string {content : String} {quote : Char} {s : Span} :
      ValueLayout ([quote] ++ content.toList ++ [quote]) (.string content quote s)
  | array {gap items : List Char} {es : List Expr} {s : Span} :
      Blanks gap → ItemsLayout items es →
      ValueLayout (['['] ++ gap ++ items ++ [']']) (.array es s)
  | object {gap members : List Char} {ms : List (String × Expr)} {default : Option String}
      {s : Span} :
      Blanks gap → MembersLayout default members ms →
      ValueLayout (['\x7b'] ++ gap ++ members ++ ['\x7d']) (.object ms default s)

/-- The texts that write an expression, and how they end. -/
inductive ExprLayout : List Char → Expr → Ending → Prop
  | integer {digits : List Char} {s : Span} : digits ≠ [] → (∀ c ∈ digits, c.isDigit = true) →
      ExprLayout digits (.integer (decimalValue digits) s) .digits
  | ident {id : Ident} : ExprLayout id.name.toList (.ident id) .operand
  | reference {text : List Char} {scope : Scope} {id : Ident} {s : Span} {ending : Ending} :
      NameLayout text id.name ending →
      ExprLayout ([scope.sigil] ++ text) (.reference scope id s) ending
  | this {s : Span} : ExprLayout ['~'] (.this s) .closed
  | value {text : List Char} {v : Value} : ValueLayout text v → ExprLayout text (.value v) .closed
  | parenthesis {gap inner gap' : List Char} {e : Expr} {s : Span} {ending : Ending} :
      Blanks gap → ExprLayout inner e ending → Blanks gap' →
      ExprLayout (['('] ++ gap ++ inner ++ gap' ++ [')']) (.parenthesis e s) .closed
  | call {gap args : List Char} {callee : Ident} {es : List Expr} {s : Span} :
      Blanks gap → ArgumentsLayout args es →
      ExprLayout (callee.name.toList ++ ['('] ++ gap ++ args ++ [')']) (.call callee es s) .closed
  | select {gap key gap' : List Char} {selection : Selection} {base : Ident} {e : Expr} {s : Span}
      {ending : Ending} :
      Blanks gap → ExprLayout key e ending → Blanks gap' →
      ExprLayout (base.name.toList ++ selection.opener ++ gap ++ key ++ gap' ++ [']'])
        (.select selection base e s) .closed
  | unary {gap arg : List Char} {op : UnaryOp} {e : Expr} {s : Span} {ending : Ending} :
      Blanks gap → ExprLayout arg e ending →
      ExprLayout ([op.token] ++ gap ++ arg) (.unary op e s) ending
  | binary {left gap gap' right : List Char} {op : BinaryOp} {l r : Expr} {s : Span}
      {ending ending' : Ending} :
      ExprLayout left l ending → Blanks gap → Blanks gap' → ExprLayout right r ending' →
      ExprLayout (left ++ gap ++ op.token ++ gap' ++ right) (.binary op l r s) ending'
  | conditional {test gap₁ gap₂ consequent gap₃ gap₄ alternate : List Char} {t c a : Expr} {s : Span}
      {ending ending' ending'' : Ending} :
      ExprLayout test t ending → Blanks gap₁ → Blanks gap₂ → ExprLayout consequent c ending' →
      Blanks gap₃ → Blanks gap₄ → ExprLayout alternate a ending'' →
      ExprLayout (test ++ gap₁ ++ ['?'] ++ gap₂ ++ consequent ++ gap₃ ++ [':'] ++ gap₄ ++ alternate)
        (.conditional t c a s) ending''

/-- The texts that write the items of an array or an index. A comma behind the last item is allowed,
and one between two items may be left out where they are told apart without it. -/
inductive ItemsLayout : List Char → List Expr → Prop
  | nil : ItemsLayout [] []
  | cons {item gap separator rest : List Char} {e : Expr} {es : List Expr} {ending : Ending} :
      ExprLayout item e ending → Blanks gap → Separator ending gap rest separator →
      ItemsLayout rest es → ItemsLayout (item ++ gap ++ separator ++ rest) (e :: es)

/-- The texts that write the members of an object. -/
inductive MembersLayout : Option String → List Char → List (String × Expr) → Prop
  | nil {default : Option String} : MembersLayout default [] []
  | cons {default : Option String} {key item gap separator rest : List Char} {name : String}
      {e : Expr} {ms : List (String × Expr)} {ending : Ending} :
      KeyLayout key name → ExprLayout item e ending → Blanks gap →
      Separator ending gap rest separator → MembersLayout default rest ms →
      MembersLayout default (markOf default name ++ key ++ item ++ gap ++ separator ++ rest)
        ((name, e) :: ms)

/-- The texts that write the arguments of a call, with a comma between any two. -/
inductive ArgumentsLayout : List Char → List Expr → Prop
  | none : ArgumentsLayout [] []
  | last {item gap : List Char} {e : Expr} {ending : Ending} :
      ExprLayout item e ending → Blanks gap → ArgumentsLayout (item ++ gap) [e]
  | cons {item gap gap' rest : List Char} {e e' : Expr} {es : List Expr} {ending : Ending} :
      ExprLayout item e ending → Blanks gap → Blanks gap' → ArgumentsLayout rest (e' :: es) →
      ArgumentsLayout (item ++ gap ++ [','] ++ gap' ++ rest) (e :: e' :: es)

end

/-! ### Layouts of entries -/

/-- The texts that write one or more attributes, with a comma between any two. -/
inductive AttributesLayout : List Char → Attributes → Prop
  | last {key value gap : List Char} {name : String} {v : Value} :
      KeyLayout key name → ValueLayout value v → Blanks gap →
      AttributesLayout (key ++ value ++ gap) [(name, v)]
  | cons {key value gap gap' rest : List Char} {name : String} {v : Value}
      {attributes : Attributes} :
      KeyLayout key name → ValueLayout value v → Blanks gap → Blanks gap' →
      AttributesLayout rest attributes →
      AttributesLayout (key ++ value ++ gap ++ [','] ++ gap' ++ rest) ((name, v) :: attributes)

/-- The texts that write the attributes of an entry, if it has any, and its closer. -/
inductive TailLayout : List Char → Option Attributes → Prop
  | bare : TailLayout ['>'] none
  | attributes {text : List Char} {attributes : Attributes} :
      AttributesLayout text attributes → TailLayout (text ++ ['>']) (some attributes)

/-- The texts that write the index of an entity, if it has one. -/
inductive IndexLayout : List Char → Option (List Expr) → Prop
  | none : IndexLayout [] none
  | some {gap items : List Char} {es : List Expr} :
      Blanks gap → ItemsLayout items es → IndexLayout (['['] ++ gap ++ items ++ [']']) (some es)

/-- The texts that write the parameters of a macro. A comma behind the last one is allowed. -/
inductive ParametersLayout : List Char → List Ident → Prop
  | nil : ParametersLayout [] []
  | last {text gap : List Char} {id : Ident} {ending : Ending} :
      NameLayout text id.name ending → Blanks gap →
      ParametersLayout ([Scope.variable.sigil] ++ text ++ gap) [id]
  | cons {text gap gap' rest : List Char} {id : Ident} {ids : List Ident} {ending : Ending} :
      NameLayout text id.name ending → Blanks gap → Blanks gap' → ParametersLayout rest ids →
      ParametersLayout ([Scope.variable.sigil] ++ text ++ gap ++ [','] ++ gap' ++ rest) (id :: ids)

/-- The texts that write an entry. Where neither an index nor a blank stands between the name of an
entity and its value, the value must not go on with the name. -/
inductive EntryLayout : List Char → Entry → Prop
  | entity {id index before value behind tail : List Char} {e : Entity} {ending : Ending} :
      NameLayout id e.id.name ending → IndexLayout index e.index → Blanks before →
      (e.index = none → before = [] → NextNot (fun c => ending.continues c || c == '[') value) →
      ValueLayout value e.value → Blanks behind → TailLayout tail e.attributes →
      EntryLayout (['<'] ++ id ++ index ++ before ++ value ++ behind ++ tail) (.entity e)
  | macroDef {id gap₁ params gap₂ gap₃ body gap₄ gap₅ tail : List Char} {m : Macro}
      {ending ending' : Ending} :
      NameLayout id m.id.name ending → Blanks gap₁ → ParametersLayout params m.parameters →
      Blanks gap₂ → Blanks gap₃ → ExprLayout body m.body ending' → Blanks gap₄ → Blanks gap₅ →
      TailLayout tail m.attributes →
      EntryLayout (['<'] ++ id ++ ['('] ++ gap₁ ++ params ++ [')'] ++ gap₂ ++ ['\x7b'] ++ gap₃ ++
        body ++ gap₄ ++ ['\x7d'] ++ gap₅ ++ tail) (.macroDef m)

/-- The texts that write entries, with blanks around them. -/
inductive BodyLayout : List Char → List Entry → Prop
  | done {gap : List Char} : Blanks gap → BodyLayout gap []
  | entry {gap entry rest : List Char} {e : Entry} {es : List Entry} :
      Blanks gap → EntryLayout entry e → BodyLayout rest es →
      BodyLayout (gap ++ entry ++ rest) (e :: es)

end LocaleText
