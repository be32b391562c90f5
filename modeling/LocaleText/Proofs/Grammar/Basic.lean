import LocaleText.Proofs.Grammar.Token

/-!
# The grammar of resources

When a text, at a byte offset of a source, spells a part of a resource. The relations are the
productions of the grammar, and the tree of a production has the extent of its text as its span.

* `SpellsValue`, `SpellsOperation` and `SpellsExpr` are the productions that contain each other
* `SpellsOperation rank` are the levels of operators: 0 for a choice, 1 to 6 for the infix operators
  from the loosest to the tightest, 7 for the signs, 8 for an operand without an operator
* `SpellsEntry`, `SpellsBody` and `SpellsResource` are the productions around them

A comma between the parts of a list may be left out where the next part cannot be read as a
continuation of the part before it: that is what `Apart` says. A `Nesting` goes along, since what
surrounds a value or an expression counts against the limit.
-/

namespace LocaleText

/-- One more level is allowed. -/
def Nesting.HasRoom (nesting : Nesting) : Prop := nesting.exhausted? = none

/-- The level of an infix operator. -/
def BinaryOp.rank : BinaryOp → Nat
  | or => 1
  | and => 2
  | eq => 3
  | notEq => 3
  | lt => 4
  | gt => 4
  | ltEq => 4
  | gtEq => 4
  | add => 5
  | sub => 5
  | mul => 6
  | div => 6
  | rem => 6

/-- What stands between a name and the key it selects by. -/
def Selection.opener : Selection → List Char
  | .attribute => ['[', '.']
  | .member => ['[']

/-! ### Separators -/

/-- The operators that a part of a list could begin with. -/
def isSign (c : Char) : Bool := ['+', '-', '*'].contains c

/-- A part of a list and the next one, with a gap between them, are told apart without a comma. -/
structure Apart (ending : Ending) (gap next : List Char) : Prop where
  clear : ending.Clear gap next
  sign : NextNot isSign next

/-- What stands between the gap behind a part of a list and the next part. -/
inductive Separator (ending : Ending) (gap next : List Char) : List Char → Prop
  | comma {blanks : List Char} : Blanks blanks → Separator ending gap next ([','] ++ blanks)
  | omitted : Apart ending gap next → Separator ending gap next []

/-- A key with the colon behind it. -/
inductive KeyText : List Char → String → Prop
  | mk {key gap gap' : List Char} {name : String} {ending : Ending} :
      NameText key name ending → Blanks gap → Blanks gap' →
      KeyText (key ++ gap ++ [':'] ++ gap') name

/-! ### Values and expressions -/

/-- A member of an object as it is written. -/
structure Member where
  marked : Bool
  key : String
  value : Expr

namespace Member

/-- The mark of the default member. -/
def mark (m : Member) : List Char := if m.marked then ['*'] else []

/-- The members in the order of their keys, the last one of a key in the place of the first. -/
def entries (ms : List Member) : Keyed Expr :=
  ms.foldl (fun entries m => entries.insert m.key m.value) []

/-- The key of the marked member. -/
def default? (ms : List Member) : Option String := (ms.find? Member.marked).map Member.key

end Member

mutual

/-- `'content'`, `"content"`, `[ items ]` or a list of members between braces. -/
inductive SpellsValue : Nesting → Nat → List Char → Value → Prop
  | string {n : Nesting} {o : Nat} {quote : Char} {content text : List Char} :
      n.HasRoom → isQuote quote = true → StringContent quote 0 content →
      text = [quote] ++ content ++ [quote] →
      SpellsValue n o text (.string (String.ofList content) quote (extent o text))
  | array {n : Nesting} {o : Nat} {gap items text : List Char} {es : List Expr} :
      n.HasRoom → Blanks gap →
      SpellsItems n.deeper (o + byteLength (['['] ++ gap)) items es →
      text = ['['] ++ gap ++ items ++ [']'] →
      SpellsValue n o text (.array es (extent o text))
  | object {n : Nesting} {o : Nat} {gap members text : List Char} {ms : List Member} :
      n.HasRoom → Blanks gap →
      SpellsMembers n.deeper (o + byteLength (['\x7b'] ++ gap)) members ms →
      ms.countP Member.marked ≤ 1 →
      text = ['\x7b'] ++ gap ++ members ++ ['\x7d'] →
      SpellsValue n o text (.object (Member.entries ms) (Member.default? ms) (extent o text))

/-- An operand without an operator. -/
inductive SpellsOperand : Nesting → Nat → List Char → Expr → Ending → Prop
  | integer {n : Nesting} {o : Nat} {digits : List Char} : IsInteger digits →
      SpellsOperand n o digits (.integer (decimalValue digits) (extent o digits)) .digits
  | ident {n : Nesting} {o : Nat} {name : List Char} :
      IsName name → NextNot Char.isDigit name →
      SpellsOperand n o name (.ident ⟨String.ofList name, extent o name⟩) .operand
  | reference {n : Nesting} {o : Nat} {scope : Scope} {id text : List Char} {name : String}
      {ending : Ending} :
      NameText id name ending → text = [scope.sigil] ++ id →
      SpellsOperand n o text
        (.reference scope ⟨name, extent (o + byteLength [scope.sigil]) id⟩ (extent o text)) ending
  | this {n : Nesting} {o : Nat} : SpellsOperand n o ['~'] (.this (extent o ['~'])) .closed
  | value {n : Nesting} {o : Nat} {text : List Char} {v : Value} :
      SpellsValue n o text v → SpellsOperand n o text (.value v) .closed
  | parenthesis {n : Nesting} {o : Nat} {gap inner gap' text : List Char} {e : Expr}
      {ending : Ending} :
      Blanks gap → SpellsExpr n (o + byteLength (['('] ++ gap)) inner e ending → Blanks gap' →
      text = ['('] ++ gap ++ inner ++ gap' ++ [')'] →
      SpellsOperand n o text (.parenthesis e (extent o text)) .closed
  | call {n : Nesting} {o : Nat} {name gap args text : List Char} {es : List Expr} :
      IsName name → NextNot Char.isDigit name → Blanks gap →
      SpellsArguments n (o + byteLength (name ++ ['('] ++ gap)) args es →
      text = name ++ ['('] ++ gap ++ args ++ [')'] →
      SpellsOperand n o text
        (.call ⟨String.ofList name, extent o name⟩ es (extent o text)) .closed
  | select {n : Nesting} {o : Nat} {selection : Selection} {name gap key gap' text : List Char}
      {e : Expr} {ending : Ending} :
      IsName name → NextNot Char.isDigit name → Blanks gap →
      SpellsExpr n (o + byteLength (name ++ selection.opener ++ gap)) key e ending →
      Blanks gap' → text = name ++ selection.opener ++ gap ++ key ++ gap' ++ [']'] →
      SpellsOperand n o text
        (.select selection ⟨String.ofList name, extent o name⟩ e (extent o text)) .closed

/-- An operand with operators of a rank and of tighter ones. -/
inductive SpellsOperation : Nat → Nesting → Nat → List Char → Expr → Ending → Prop
  | operand {n : Nesting} {o : Nat} {text : List Char} {e : Expr} {ending : Ending} :
      SpellsOperand n o text e ending → SpellsOperation 8 n o text e ending
  | looser {rank : Nat} {n : Nesting} {o : Nat} {text : List Char} {e : Expr} {ending : Ending} :
      SpellsOperation (rank + 1) n o text e ending → SpellsOperation rank n o text e ending
  | unary {n : Nesting} {o : Nat} {op : UnaryOp} {gap arg text : List Char} {e : Expr}
      {ending : Ending} :
      n.HasRoom → Blanks gap →
      SpellsOperation 7 n.deeper (o + byteLength ([op.token] ++ gap)) arg e ending →
      text = [op.token] ++ gap ++ arg →
      SpellsOperation 7 n o text (.unary op e (extent o text)) ending
  | binary {rank : Nat} {n : Nesting} {o : Nat} {op : BinaryOp}
      {left gap gap' right text : List Char} {l r : Expr} {ending ending' : Ending} :
      op.rank = rank → SpellsOperation rank n o left l ending → Blanks gap → Blanks gap' →
      SpellsOperation (rank + 1) n (o + byteLength (left ++ gap ++ op.token ++ gap')) right r
        ending' →
      text = left ++ gap ++ op.token ++ gap' ++ right →
      SpellsOperation rank n o text (.binary op l r (extent o text)) ending'
  | choice {n : Nesting} {o : Nat} {test gap₁ gap₂ consequent gap₃ gap₄ alternate text : List Char}
      {t c a : Expr} {ending ending' ending'' : Ending} :
      SpellsOperation 1 n o test t ending → Blanks gap₁ → Blanks gap₂ →
      SpellsExpr n (o + byteLength (test ++ gap₁ ++ ['?'] ++ gap₂)) consequent c ending' →
      Blanks gap₃ → Blanks gap₄ →
      SpellsExpr n
        (o + byteLength (test ++ gap₁ ++ ['?'] ++ gap₂ ++ consequent ++ gap₃ ++ [':'] ++ gap₄))
        alternate a ending'' →
      text = test ++ gap₁ ++ ['?'] ++ gap₂ ++ consequent ++ gap₃ ++ [':'] ++ gap₄ ++ alternate →
      SpellsOperation 0 n o text (.conditional t c a (extent o text)) ending''

/-- An expression, one level further in than what surrounds it. -/
inductive SpellsExpr : Nesting → Nat → List Char → Expr → Ending → Prop
  | mk {n : Nesting} {o : Nat} {text : List Char} {e : Expr} {ending : Ending} :
      n.HasRoom → SpellsOperation 0 n.deeper o text e ending → SpellsExpr n o text e ending

/-- The items of an array or an index, up to the closer. -/
inductive SpellsItems : Nesting → Nat → List Char → List Expr → Prop
  | nil {n : Nesting} {o : Nat} : SpellsItems n o [] []
  | cons {n : Nesting} {o : Nat} {item gap separator rest text : List Char} {e : Expr}
      {es : List Expr} {ending : Ending} :
      SpellsExpr n o item e ending → Blanks gap → Separator ending gap rest separator →
      SpellsItems n (o + byteLength (item ++ gap ++ separator)) rest es →
      text = item ++ gap ++ separator ++ rest →
      SpellsItems n o text (e :: es)

/-- The members of an object, up to the closer. -/
inductive SpellsMembers : Nesting → Nat → List Char → List Member → Prop
  | nil {n : Nesting} {o : Nat} : SpellsMembers n o [] []
  | cons {n : Nesting} {o : Nat} {m : Member} {key item gap separator rest text : List Char}
      {ms : List Member} {ending : Ending} :
      KeyText key m.key →
      SpellsExpr n (o + byteLength (m.mark ++ key)) item m.value ending → Blanks gap →
      Separator ending gap rest separator →
      SpellsMembers n (o + byteLength (m.mark ++ key ++ item ++ gap ++ separator)) rest ms →
      text = m.mark ++ key ++ item ++ gap ++ separator ++ rest →
      SpellsMembers n o text (m :: ms)

/-- The arguments of a call, up to the closer: none, or some with commas between them. -/
inductive SpellsArguments : Nesting → Nat → List Char → List Expr → Prop
  | none {n : Nesting} {o : Nat} : SpellsArguments n o [] []
  | some {n : Nesting} {o : Nat} {text : List Char} {es : List Expr} :
      SpellsSequence n o text es → SpellsArguments n o text es

/-- One or more expressions with commas between them. -/
inductive SpellsSequence : Nesting → Nat → List Char → List Expr → Prop
  | last {n : Nesting} {o : Nat} {item gap text : List Char} {e : Expr} {ending : Ending} :
      SpellsExpr n o item e ending → Blanks gap → text = item ++ gap →
      SpellsSequence n o text [e]
  | cons {n : Nesting} {o : Nat} {item gap gap' rest text : List Char} {e : Expr} {es : List Expr}
      {ending : Ending} :
      SpellsExpr n o item e ending → Blanks gap → Blanks gap' →
      SpellsSequence n (o + byteLength (item ++ gap ++ [','] ++ gap')) rest es →
      text = item ++ gap ++ [','] ++ gap' ++ rest →
      SpellsSequence n o text (e :: es)

end

/-! ### Entries -/

/-- One or more `key: value` pairs with commas between them. -/
inductive SpellsAttributes (n : Nesting) : Nat → List Char → List (String × Value) → Prop
  | last {o : Nat} {key value gap text : List Char} {name : String} {v : Value} :
      KeyText key name → SpellsValue n (o + byteLength key) value v → Blanks gap →
      text = key ++ value ++ gap → SpellsAttributes n o text [(name, v)]
  | cons {o : Nat} {key value gap gap' rest text : List Char} {name : String} {v : Value}
      {attributes : List (String × Value)} :
      KeyText key name → SpellsValue n (o + byteLength key) value v → Blanks gap → Blanks gap' →
      SpellsAttributes n (o + byteLength (key ++ value ++ gap ++ [','] ++ gap')) rest attributes →
      text = key ++ value ++ gap ++ [','] ++ gap' ++ rest →
      SpellsAttributes n o text ((name, v) :: attributes)

/-- The attributes in the order of their keys, the last one of a key in the place of the first. -/
def attributesOf (attributes : List (String × Value)) : Attributes :=
  attributes.foldl (fun entries a => entries.insert a.1 a.2) []

/-- The attributes of an entry, if it has any, and its closer. -/
inductive SpellsTail (n : Nesting) : Nat → List Char → Option Attributes → Prop
  | bare {o : Nat} : SpellsTail n o ['>'] none
  | attributes {o : Nat} {text : List Char} {attributes : List (String × Value)} :
      SpellsAttributes n o text attributes →
      SpellsTail n o (text ++ ['>']) (some (attributesOf attributes))

/-- The index of an entity, if it has one. -/
inductive SpellsIndex (n : Nesting) : Nat → List Char → Option (List Expr) → Prop
  | none {o : Nat} : SpellsIndex n o [] none
  | some {o : Nat} {gap items text : List Char} {es : List Expr} :
      Blanks gap → SpellsItems n (o + byteLength (['['] ++ gap)) items es →
      text = ['['] ++ gap ++ items ++ [']'] → SpellsIndex n o text (some es)

/-- The parameters of a macro, up to the closer. -/
inductive SpellsParameters : Nat → List Char → List Ident → Prop
  | nil {o : Nat} : SpellsParameters o [] []
  | last {o : Nat} {id gap text : List Char} {name : String} {ending : Ending} :
      NameText id name ending → Blanks gap → text = [Scope.variable.sigil] ++ id ++ gap →
      SpellsParameters o text [⟨name, extent (o + byteLength [Scope.variable.sigil]) id⟩]
  | cons {o : Nat} {id gap gap' rest text : List Char} {name : String} {ending : Ending}
      {ids : List Ident} :
      NameText id name ending → Blanks gap → Blanks gap' →
      SpellsParameters
        (o + byteLength ([Scope.variable.sigil] ++ id ++ gap ++ [','] ++ gap')) rest ids →
      text = [Scope.variable.sigil] ++ id ++ gap ++ [','] ++ gap' ++ rest →
      SpellsParameters o text (⟨name, extent (o + byteLength [Scope.variable.sigil]) id⟩ :: ids)

/-- The gap that a run of blanks is. -/
def gapAt (o : Nat) (blanks : List Char) : Gap := ⟨String.ofList blanks, extent o blanks⟩

/-- An entity or a macro. Without an index and without a gap the value must not go on with the name
of the entity. -/
inductive SpellsEntry (n : Nesting) (o : Nat) : List Char → Entry → Prop
  | entity {id index before value behind tail text : List Char} {name : String} {ending : Ending}
      {es : Option (List Expr)} {v : Value} {attrs : Option Attributes} :
      NameText id name ending →
      SpellsIndex n (o + byteLength (['<'] ++ id)) index es →
      Blanks before →
      (es = none → before = [] → NextNot (fun c => ending.continues c || c == '[') value) →
      SpellsValue n (o + byteLength (['<'] ++ id ++ index ++ before)) value v →
      Blanks behind →
      SpellsTail n (o + byteLength (['<'] ++ id ++ index ++ before ++ value ++ behind)) tail
        attrs →
      text = ['<'] ++ id ++ index ++ before ++ value ++ behind ++ tail →
      SpellsEntry n o text (.entity ⟨⟨name, extent (o + byteLength ['<']) id⟩, es,
        gapAt (o + byteLength (['<'] ++ id ++ index)) before, v,
        gapAt (o + byteLength (['<'] ++ id ++ index ++ before ++ value)) behind, attrs,
        extent o text⟩)
  | macroDef {id gap₁ params gap₂ gap₃ body gap₄ gap₅ tail text : List Char} {name : String}
      {ending ending' : Ending} {ids : List Ident} {e : Expr} {attrs : Option Attributes} :
      NameText id name ending → Blanks gap₁ →
      SpellsParameters (o + byteLength (['<'] ++ id ++ ['('] ++ gap₁)) params ids →
      Blanks gap₂ → Blanks gap₃ →
      SpellsExpr n
        (o + byteLength (['<'] ++ id ++ ['('] ++ gap₁ ++ params ++ [')'] ++ gap₂ ++ ['\x7b'] ++
          gap₃)) body e ending' →
      Blanks gap₄ → Blanks gap₅ →
      SpellsTail n
        (o + byteLength (['<'] ++ id ++ ['('] ++ gap₁ ++ params ++ [')'] ++ gap₂ ++ ['\x7b'] ++
          gap₃ ++ body ++ gap₄ ++ ['\x7d'] ++ gap₅)) tail attrs →
      text = ['<'] ++ id ++ ['('] ++ gap₁ ++ params ++ [')'] ++ gap₂ ++ ['\x7b'] ++ gap₃ ++ body ++
        gap₄ ++ ['\x7d'] ++ gap₅ ++ tail →
      SpellsEntry n o text (.macroDef ⟨⟨name, extent (o + byteLength ['<']) id⟩, ids, e, attrs,
        extent o text⟩)

/-- The item that a run of blanks between entries is: none, if there are no blanks. -/
def gapItems (o : Nat) (blanks : List Char) : List Item :=
  if blanks = [] then [] else [.gap (gapAt o blanks)]

/-- Entries with blanks around them. -/
inductive SpellsBody (n : Nesting) : Nat → List Char → List Item → Prop
  | done {o : Nat} {gap : List Char} : Blanks gap → SpellsBody n o gap (gapItems o gap)
  | entry {o : Nat} {gap entry rest text : List Char} {e : Entry} {items : List Item} :
      Blanks gap → SpellsEntry n (o + byteLength gap) entry e →
      SpellsBody n (o + byteLength (gap ++ entry)) rest items →
      text = gap ++ entry ++ rest →
      SpellsBody n o text (gapItems o gap ++ .entry e :: items)

/-- A source that spells a resource, under a limit on the nesting of values and expressions. -/
structure SpellsResource (limit : Option Nat) (source : List Char) (r : Resource) : Prop where
  body : SpellsBody (.outermost limit) 0 source r.body
  span : r.span = extent 0 source

end LocaleText
