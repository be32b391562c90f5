import LocaleText.Proofs.Grammar.Front

/-!
# The grammar of unfinished texts

When a text begins a part of a resource and ends before the part is complete, and which composites
have been opened by then and not closed. The rules are those of the grammar, cut off after a prefix of
what they ask for: what comes first is complete, and at most the last part is unfinished itself.

* `Unfinished` is about values and expressions, `UnfinishedEntry` and its companions about what is
  around them
* `UnfinishedBody` is the relation for whole sources
* `UnfinishedBody.openedIn` says where the composites are opened: the innermost one is the last one
* `Unfinished.mayStart` says how an unfinished expression begins

Openings are listed with the innermost one first. Parentheses, calls, brackets behind a name, branches
and operators may be open as well, and are not listed. An unfinished string is no unfinished text: what
is missing then is told by its quote.
-/

namespace LocaleText

/-- A composite that has been opened, and where. -/
structure Opening where
  composite : Composite
  offset : Nat
  deriving DecidableEq, Repr

def Opening.span (o : Opening) : Span := extent o.offset [o.composite.opener]

/-! ### Names and keys -/

/-- The beginning of a name that has no character of the name yet. -/
inductive UnfinishedName : List Char → Prop
  | nil : UnfinishedName []
  | quote {quote : Char} : isQuote quote = true → UnfinishedName [quote]

/-- The beginning of a key without its colon. -/
inductive UnfinishedKey : List Char → Prop
  | name {text : List Char} : UnfinishedName text → UnfinishedKey text
  | colon {id gap text : List Char} {name : String} {ending : Ending} :
      NameText id name ending → Blanks gap → text = id ++ gap → UnfinishedKey text

def markText (marked : Bool) : List Char := if marked then ['*'] else []

/-! ### Values and expressions -/

/-- The productions of the grammar that contain each other, as far as something can be missing. -/
inductive Production
  | value
  /-- The items of an array or an index, with the closer. -/
  | items
  /-- The members of an object, with the closer. The flag says whether one before them is marked. -/
  | members (marked : Bool)
  | operand
  /-- An expression with the blanks around it and a character that closes it. -/
  | enclosed
  /-- One argument of a call or more, with the closer. -/
  | arguments
  /-- The levels of operators, as in `SpellsOperation`. -/
  | operation (rank : Nat)
  | expr

/-- A text that begins a production and lacks the rest, at an offset of a source, with the composites
that are open at its end. -/
inductive Unfinished : Production → Nesting → Nat → List Char → List Opening → Prop
  | noValue {n : Nesting} {o : Nat} : n.HasRoom → Unfinished .value n o [] []
  | array {n : Nesting} {o : Nat} {gap rest text : List Char} {openings : List Opening} :
      n.HasRoom → Blanks gap →
      Unfinished .items n.deeper (o + byteLength (['['] ++ gap)) rest openings →
      text = ['['] ++ gap ++ rest → Unfinished .value n o text (openings ++ [⟨.array, o⟩])
  | object {n : Nesting} {o : Nat} {gap rest text : List Char} {openings : List Opening} :
      n.HasRoom → Blanks gap →
      Unfinished (.members false) n.deeper (o + byteLength (['\x7b'] ++ gap)) rest openings →
      text = ['\x7b'] ++ gap ++ rest → Unfinished .value n o text (openings ++ [⟨.object, o⟩])
  | noItem {n : Nesting} {o : Nat} : Unfinished .items n o [] []
  | item {n : Nesting} {o : Nat} {text : List Char} {openings : List Opening} :
      text ≠ [] → Unfinished .expr n o text openings → Unfinished .items n o text openings
  | moreItems {n : Nesting} {o : Nat} {item gap separator rest text : List Char} {e : Expr}
      {ending : Ending} {openings : List Opening} :
      SpellsExpr n o item e ending → Blanks gap → Separator ending gap rest separator →
      Unfinished .items n (o + byteLength (item ++ gap ++ separator)) rest openings →
      text = item ++ gap ++ separator ++ rest → Unfinished .items n o text openings
  | noMember {marked : Bool} {n : Nesting} {o : Nat} : Unfinished (.members marked) n o [] []
  | memberKey {marked mark : Bool} {n : Nesting} {o : Nat} {key text : List Char} :
      text ≠ [] → UnfinishedKey key → text = markText mark ++ key →
      Unfinished (.members marked) n o text []
  | member {marked mark : Bool} {n : Nesting} {o : Nat} {key rest text : List Char} {name : String}
      {openings : List Opening} :
      KeyText key name → Unfinished .expr n (o + byteLength (markText mark ++ key)) rest openings →
      text = markText mark ++ key ++ rest → Unfinished (.members marked) n o text openings
  | moreMembers {marked : Bool} {n : Nesting} {o : Nat} {m : Member}
      {key item gap separator rest text : List Char} {ending : Ending} {openings : List Opening} :
      KeyText key m.key →
      SpellsExpr n (o + byteLength (m.mark ++ key)) item m.value ending → Blanks gap →
      Separator ending gap rest separator → (m.marked = true → marked = false) →
      Unfinished (.members (marked || m.marked)) n
        (o + byteLength (m.mark ++ key ++ item ++ gap ++ separator)) rest openings →
      text = m.mark ++ key ++ item ++ gap ++ separator ++ rest →
      Unfinished (.members marked) n o text openings
  | noOperand {n : Nesting} {o : Nat} : Unfinished .operand n o [] []
  | reference {n : Nesting} {o : Nat} {scope : Scope} {id text : List Char} :
      UnfinishedName id → text = [scope.sigil] ++ id → Unfinished .operand n o text []
  | ofValue {n : Nesting} {o : Nat} {text : List Char} {openings : List Opening} :
      text ≠ [] → Unfinished .value n o text openings → Unfinished .operand n o text openings
  | parenthesis {n : Nesting} {o : Nat} {rest text : List Char} {openings : List Opening} :
      Unfinished .enclosed n (o + byteLength ['(']) rest openings → text = ['('] ++ rest →
      Unfinished .operand n o text openings
  | call {n : Nesting} {o : Nat} {name gap rest text : List Char} {openings : List Opening} :
      IsName name → NextNot Char.isDigit name → Blanks gap →
      Unfinished .arguments n (o + byteLength (name ++ ['('] ++ gap)) rest openings →
      text = name ++ ['('] ++ gap ++ rest → Unfinished .operand n o text openings
  | select {n : Nesting} {o : Nat} {selection : Selection} {name rest text : List Char}
      {openings : List Opening} :
      IsName name → NextNot Char.isDigit name →
      Unfinished .enclosed n (o + byteLength (name ++ selection.opener)) rest openings →
      text = name ++ selection.opener ++ rest → Unfinished .operand n o text openings
  | enclosed {n : Nesting} {o : Nat} {gap rest text : List Char} {openings : List Opening} :
      Blanks gap → Unfinished .expr n (o + byteLength gap) rest openings → text = gap ++ rest →
      Unfinished .enclosed n o text openings
  | unclosed {n : Nesting} {o : Nat} {gap inner gap' text : List Char} {e : Expr} {ending : Ending} :
      Blanks gap → SpellsExpr n (o + byteLength gap) inner e ending → Blanks gap' →
      text = gap ++ inner ++ gap' → Unfinished .enclosed n o text []
  | argument {n : Nesting} {o : Nat} {text : List Char} {openings : List Opening} :
      Unfinished .expr n o text openings → Unfinished .arguments n o text openings
  | noArgumentEnd {n : Nesting} {o : Nat} {item gap text : List Char} {e : Expr} {ending : Ending} :
      SpellsExpr n o item e ending → Blanks gap → text = item ++ gap → Unfinished .arguments n o text []
  | moreArguments {n : Nesting} {o : Nat} {item gap gap' rest text : List Char} {e : Expr}
      {ending : Ending} {openings : List Opening} :
      SpellsExpr n o item e ending → Blanks gap → Blanks gap' →
      Unfinished .arguments n (o + byteLength (item ++ gap ++ [','] ++ gap')) rest openings →
      text = item ++ gap ++ [','] ++ gap' ++ rest → Unfinished .arguments n o text openings
  | ofOperand {n : Nesting} {o : Nat} {text : List Char} {openings : List Opening} :
      Unfinished .operand n o text openings → Unfinished (.operation 7) n o text openings
  | unary {n : Nesting} {o : Nat} {op : UnaryOp} {gap rest text : List Char}
      {openings : List Opening} :
      n.HasRoom → Blanks gap →
      Unfinished (.operation 7) n.deeper (o + byteLength ([op.token] ++ gap)) rest openings →
      text = [op.token] ++ gap ++ rest → Unfinished (.operation 7) n o text openings
  | looser {rank : Nat} {n : Nesting} {o : Nat} {text : List Char} {openings : List Opening} :
      rank < 7 → Unfinished (.operation (rank + 1)) n o text openings →
      Unfinished (.operation rank) n o text openings
  | binary {rank : Nat} {n : Nesting} {o : Nat} {op : BinaryOp}
      {left gap gap' rest text : List Char} {l : Expr} {ending : Ending} {openings : List Opening} :
      op.rank = rank → SpellsOperation (rank + 1) n o left l ending → Blanks gap → Blanks gap' →
      Unfinished (.operation rank) n (o + byteLength (left ++ gap ++ op.token ++ gap')) rest openings →
      text = left ++ gap ++ op.token ++ gap' ++ rest → Unfinished (.operation rank) n o text openings
  | consequent {n : Nesting} {o : Nat} {test gap₁ gap₂ rest text : List Char} {t : Expr}
      {ending : Ending} {openings : List Opening} :
      SpellsOperation 1 n o test t ending → Blanks gap₁ → Blanks gap₂ →
      Unfinished .expr n (o + byteLength (test ++ gap₁ ++ ['?'] ++ gap₂)) rest openings →
      text = test ++ gap₁ ++ ['?'] ++ gap₂ ++ rest → Unfinished (.operation 0) n o text openings
  | noAlternate {n : Nesting} {o : Nat} {test gap₁ gap₂ consequent gap₃ text : List Char}
      {t c : Expr} {ending ending' : Ending} :
      SpellsOperation 1 n o test t ending → Blanks gap₁ → Blanks gap₂ →
      SpellsExpr n (o + byteLength (test ++ gap₁ ++ ['?'] ++ gap₂)) consequent c ending' →
      Blanks gap₃ → text = test ++ gap₁ ++ ['?'] ++ gap₂ ++ consequent ++ gap₃ →
      Unfinished (.operation 0) n o text []
  | alternate {n : Nesting} {o : Nat} {test gap₁ gap₂ consequent gap₃ gap₄ rest text : List Char}
      {t c : Expr} {ending ending' : Ending} {openings : List Opening} :
      SpellsOperation 1 n o test t ending → Blanks gap₁ → Blanks gap₂ →
      SpellsExpr n (o + byteLength (test ++ gap₁ ++ ['?'] ++ gap₂)) consequent c ending' →
      Blanks gap₃ → Blanks gap₄ →
      Unfinished .expr n
        (o + byteLength (test ++ gap₁ ++ ['?'] ++ gap₂ ++ consequent ++ gap₃ ++ [':'] ++ gap₄)) rest
        openings →
      text = test ++ gap₁ ++ ['?'] ++ gap₂ ++ consequent ++ gap₃ ++ [':'] ++ gap₄ ++ rest →
      Unfinished (.operation 0) n o text openings
  | expr {n : Nesting} {o : Nat} {text : List Char} {openings : List Opening} :
      n.HasRoom → Unfinished (.operation 0) n.deeper o text openings →
      Unfinished .expr n o text openings

/-! ### Entries -/

/-- The attributes of an entry, with its closer. -/
inductive UnfinishedAttributes (n : Nesting) : Nat → List Char → List Opening → Prop
  | key {o : Nat} {text : List Char} : UnfinishedKey text → UnfinishedAttributes n o text []
  | value {o : Nat} {key rest text : List Char} {name : String} {openings : List Opening} :
      KeyText key name → Unfinished .value n (o + byteLength key) rest openings →
      text = key ++ rest → UnfinishedAttributes n o text openings
  | unclosed {o : Nat} {key value gap text : List Char} {name : String} {v : Value} :
      KeyText key name → SpellsValue n (o + byteLength key) value v → Blanks gap →
      text = key ++ value ++ gap → UnfinishedAttributes n o text []
  | more {o : Nat} {key value gap gap' rest text : List Char} {name : String} {v : Value}
      {openings : List Opening} :
      KeyText key name → SpellsValue n (o + byteLength key) value v → Blanks gap → Blanks gap' →
      UnfinishedAttributes n (o + byteLength (key ++ value ++ gap ++ [','] ++ gap')) rest openings →
      text = key ++ value ++ gap ++ [','] ++ gap' ++ rest → UnfinishedAttributes n o text openings

/-- The parameters of a macro, with the closer. -/
inductive UnfinishedParameters : List Char → Prop
  | nil : UnfinishedParameters []
  | name {id text : List Char} : UnfinishedName id → text = [Scope.variable.sigil] ++ id →
      UnfinishedParameters text
  | unclosed {id gap text : List Char} {name : String} {ending : Ending} :
      NameText id name ending → Blanks gap → text = [Scope.variable.sigil] ++ id ++ gap →
      UnfinishedParameters text
  | more {id gap gap' rest text : List Char} {name : String} {ending : Ending} :
      NameText id name ending → Blanks gap → Blanks gap' → UnfinishedParameters rest →
      text = [Scope.variable.sigil] ++ id ++ gap ++ [','] ++ gap' ++ rest →
      UnfinishedParameters text

/-- An entity or a macro. What comes before the part that is unfinished is as in `SpellsEntry`. -/
inductive UnfinishedEntry (n : Nesting) (o : Nat) : List Char → List Opening → Prop
  | name {id text : List Char} : UnfinishedName id → text = ['<'] ++ id → UnfinishedEntry n o text []
  | index {id gap rest text : List Char} {name : String} {ending : Ending}
      {openings : List Opening} :
      NameText id name ending → Blanks gap →
      Unfinished .items n (o + byteLength (['<'] ++ id ++ ['['] ++ gap)) rest openings →
      text = ['<'] ++ id ++ ['['] ++ gap ++ rest →
      UnfinishedEntry n o text (openings ++ [⟨.index, o + byteLength (['<'] ++ id)⟩])
  | value {id index before rest text : List Char} {name : String} {ending : Ending}
      {es : Option (List Expr)} {openings : List Opening} :
      NameText id name ending → SpellsIndex n (o + byteLength (['<'] ++ id)) index es →
      Blanks before →
      (es = none → before = [] → NextNot (fun c => ending.continues c || c == '[') rest) →
      Unfinished .value n (o + byteLength (['<'] ++ id ++ index ++ before)) rest openings →
      text = ['<'] ++ id ++ index ++ before ++ rest → UnfinishedEntry n o text openings
  | attributes {id index before value behind rest text : List Char} {name : String}
      {ending : Ending} {es : Option (List Expr)} {v : Value} {openings : List Opening} :
      NameText id name ending → SpellsIndex n (o + byteLength (['<'] ++ id)) index es →
      Blanks before →
      (es = none → before = [] → NextNot (fun c => ending.continues c || c == '[') value) →
      SpellsValue n (o + byteLength (['<'] ++ id ++ index ++ before)) value v → Blanks behind →
      UnfinishedAttributes n
        (o + byteLength (['<'] ++ id ++ index ++ before ++ value ++ behind)) rest openings →
      text = ['<'] ++ id ++ index ++ before ++ value ++ behind ++ rest →
      UnfinishedEntry n o text openings
  | parameters {id gap rest text : List Char} {name : String} {ending : Ending} :
      NameText id name ending → Blanks gap → UnfinishedParameters rest →
      text = ['<'] ++ id ++ ['('] ++ gap ++ rest → UnfinishedEntry n o text []
  | noBody {id gap₁ params gap₂ text : List Char} {name : String} {ending : Ending}
      {ids : List Ident} :
      NameText id name ending → Blanks gap₁ →
      SpellsParameters (o + byteLength (['<'] ++ id ++ ['('] ++ gap₁)) params ids → Blanks gap₂ →
      text = ['<'] ++ id ++ ['('] ++ gap₁ ++ params ++ [')'] ++ gap₂ → UnfinishedEntry n o text []
  | body {id gap₁ params gap₂ rest text : List Char} {name : String} {ending : Ending}
      {ids : List Ident} {openings : List Opening} :
      NameText id name ending → Blanks gap₁ →
      SpellsParameters (o + byteLength (['<'] ++ id ++ ['('] ++ gap₁)) params ids → Blanks gap₂ →
      Unfinished .enclosed n
        (o + byteLength (['<'] ++ id ++ ['('] ++ gap₁ ++ params ++ [')'] ++ gap₂ ++ ['\x7b'])) rest
        openings →
      text = ['<'] ++ id ++ ['('] ++ gap₁ ++ params ++ [')'] ++ gap₂ ++ ['\x7b'] ++ rest →
      UnfinishedEntry n o text openings
  | macroAttributes {id gap₁ params gap₂ gap₃ body gap₄ gap₅ rest text : List Char} {name : String}
      {ending ending' : Ending} {ids : List Ident} {e : Expr} {openings : List Opening} :
      NameText id name ending → Blanks gap₁ →
      SpellsParameters (o + byteLength (['<'] ++ id ++ ['('] ++ gap₁)) params ids → Blanks gap₂ →
      Blanks gap₃ →
      SpellsExpr n
        (o + byteLength (['<'] ++ id ++ ['('] ++ gap₁ ++ params ++ [')'] ++ gap₂ ++ ['\x7b'] ++
          gap₃)) body e ending' →
      Blanks gap₄ → Blanks gap₅ →
      UnfinishedAttributes n
        (o + byteLength (['<'] ++ id ++ ['('] ++ gap₁ ++ params ++ [')'] ++ gap₂ ++ ['\x7b'] ++
          gap₃ ++ body ++ gap₄ ++ ['\x7d'] ++ gap₅)) rest openings →
      text = ['<'] ++ id ++ ['('] ++ gap₁ ++ params ++ [')'] ++ gap₂ ++ ['\x7b'] ++ gap₃ ++ body ++
        gap₄ ++ ['\x7d'] ++ gap₅ ++ rest →
      UnfinishedEntry n o text openings

/-- Entries with blanks around them, the last one of which is unfinished. -/
inductive UnfinishedBody (n : Nesting) : Nat → List Char → List Opening → Prop
  | last {o : Nat} {gap rest text : List Char} {openings : List Opening} :
      Blanks gap → UnfinishedEntry n (o + byteLength gap) rest openings → text = gap ++ rest →
      UnfinishedBody n o text openings
  | entry {o : Nat} {gap entry rest text : List Char} {e : Entry} {openings : List Opening} :
      Blanks gap → SpellsEntry n (o + byteLength gap) entry e →
      UnfinishedBody n (o + byteLength (gap ++ entry)) rest openings →
      text = gap ++ entry ++ rest → UnfinishedBody n o text openings

/-! ### Where the composites are opened -/

/-- Composites that are opened within a text at an offset, each one before those listed ahead of it. -/
structure OpenedIn (o : Nat) (text : List Char) (openings : List Opening) : Prop where
  opener : ∀ x ∈ openings, ∃ before behind,
    text = before ++ [x.composite.opener] ++ behind ∧ x.offset = o + byteLength before
  sorted : openings.Pairwise fun x y => y.offset < x.offset

namespace OpenedIn

variable {o : Nat} {front rest text : List Char} {openings : List Opening}

theorem nil : OpenedIn o text [] := ⟨by simp, .nil⟩

theorem le (h : OpenedIn o text openings) : ∀ x ∈ openings, o ≤ x.offset := by
  intro x hx
  obtain ⟨before, behind, -, ho⟩ := h.opener x hx
  omega

/-- What is opened in a part is opened in the whole. -/
theorem behind (h : OpenedIn (o + byteLength front) rest openings) (ht : text = front ++ rest) :
    OpenedIn o text openings := by
  refine ⟨fun x hx => ?_, h.sorted⟩
  obtain ⟨before, behind, hrest, ho⟩ := h.opener x hx
  refine ⟨front ++ before, behind, ?_, ?_⟩
  · rw [ht, hrest]
    simp
  · rw [ho, byteLength_append, Nat.add_assoc]

/-- One more composite that everything else is opened in. -/
theorem enclose {composite : Composite} {gap : List Char}
    (h : OpenedIn (o + byteLength ([composite.opener] ++ gap)) rest openings)
    (ht : text = [composite.opener] ++ gap ++ rest) :
    OpenedIn o text (openings ++ [⟨composite, o⟩]) := by
  have hpos := composite.opener.utf8Size_pos
  refine ⟨fun x hx => ?_, List.pairwise_append.mpr ⟨h.sorted, List.pairwise_singleton .., ?_⟩⟩
  · rcases List.mem_append.mp hx with hx | hx
    · exact (h.behind ht).opener x hx
    · obtain rfl := List.mem_singleton.mp hx
      exact ⟨[], gap ++ rest, by simpa using ht, rfl⟩
  · intro x hx y hy
    obtain rfl := List.mem_singleton.mp hy
    have hle := h.le x hx
    simp only [List.cons_append, List.nil_append, byteLength_cons] at hle
    show o < x.offset
    omega

/-- The innermost composite is opened last. -/
theorem offset_le {innermost : Opening} {outer : List Opening}
    (h : OpenedIn o text (innermost :: outer)) :
    ∀ x ∈ innermost :: outer, x.offset ≤ innermost.offset := by
  intro x hx
  rcases List.mem_cons.mp hx with rfl | hx
  · exact Nat.le_refl _
  · exact Nat.le_of_lt ((List.pairwise_cons.mp h.sorted).1 x hx)

end OpenedIn

/-- By induction on the relation. -/
theorem Unfinished.openedIn {p : Production} {n : Nesting} {o : Nat} {text : List Char}
    {openings : List Opening} (h : Unfinished p n o text openings) : OpenedIn o text openings := by
  induction h with
  | noValue | noItem | noMember | memberKey | noOperand | reference | unclosed | noArgumentEnd
  | noAlternate => exact .nil
  | item _ _ ih | ofValue _ _ ih | argument _ ih | ofOperand _ ih | looser _ _ ih | expr _ _ ih => exact ih
  | array _ _ _ ht ih | object _ _ _ ht ih => exact ih.enclose ht
  | moreItems _ _ _ _ ht ih | member _ _ ht ih | moreMembers _ _ _ _ _ _ ht ih | parenthesis _ ht ih
  | call _ _ _ _ ht ih | select _ _ _ ht ih | enclosed _ _ ht ih | moreArguments _ _ _ _ ht ih
  | unary _ _ _ ht ih | binary _ _ _ _ _ ht ih | consequent _ _ _ _ ht ih
  | alternate _ _ _ _ _ _ _ ht ih => exact ih.behind ht

theorem UnfinishedAttributes.openedIn {n : Nesting} {o : Nat} {text : List Char}
    {openings : List Opening} (h : UnfinishedAttributes n o text openings) :
    OpenedIn o text openings := by
  induction h with
  | key | unclosed => exact .nil
  | value _ hu ht => exact hu.openedIn.behind ht
  | more _ _ _ _ _ ht ih => exact ih.behind ht

theorem UnfinishedEntry.openedIn {n : Nesting} {o : Nat} {text : List Char}
    {openings : List Opening} (h : UnfinishedEntry n o text openings) : OpenedIn o text openings := by
  cases h with
  | name | parameters | noBody => exact .nil
  | @index id gap rest _ _ _ openings _ _ hu ht =>
    have hinner : OpenedIn (o + byteLength (['<'] ++ id) + byteLength ([Composite.index.opener] ++ gap))
        rest openings := by simpa [Composite.opener, Nat.add_assoc] using hu.openedIn
    exact (hinner.enclose rfl).behind (by simpa [Composite.opener] using ht)
  | value _ _ _ _ hu ht | attributes _ _ _ _ _ _ hu ht | body _ _ _ _ hu ht
  | macroAttributes _ _ _ _ _ _ _ _ hu ht => exact hu.openedIn.behind ht

/-- In the last entry, which is the only one that is unfinished. -/
theorem UnfinishedBody.openedIn {n : Nesting} {o : Nat} {text : List Char}
    {openings : List Opening} (h : UnfinishedBody n o text openings) : OpenedIn o text openings := by
  induction h with
  | last _ hu ht => exact hu.openedIn.behind ht
  | entry _ _ _ ht ih => exact ih.behind ht

/-! ### How an unfinished expression begins -/

/-- A text begins as an expression does, unless it ends there. -/
def MayStart (text : List Char) : Prop :=
  ∀ c cs, text = c :: cs → isOperandStart c = true ∧ (c = '!' → cs.head? ≠ some '=')

namespace MayStart

variable {text : List Char}

theorem nil : MayStart [] := fun _ _ h => absurd h (by simp)

theorem cons {c : Char} {cs : List Char} (hc : isOperandStart c = true) (hn : c ≠ '!') :
    MayStart (c :: cs) := by
  intro d ds h
  obtain ⟨rfl, rfl⟩ := List.cons.inj h
  exact ⟨hc, fun he => absurd he hn⟩

/-- A complete expression begins as one. -/
theorem of_starts (h : Starts text) : MayStart text := by
  intro d ds htext
  obtain ⟨c, cs, rfl, hc, hn⟩ := h
  obtain ⟨rfl, rfl⟩ := List.cons.inj htext
  refine ⟨hc, fun he heq => ?_⟩
  obtain ⟨d, ds, rfl, hd⟩ := hn he
  exact hd (by simpa using heq)

/-- An unfinished expression does not begin with a blank. -/
theorem nextNot_isBlank (h : MayStart text) : NextNot isBlank text := by
  cases text with
  | nil => exact nextNot_nil isBlank
  | cons c cs =>
    rw [nextNot_cons, Bool.eq_false_iff]
    intro hb
    exact absurd (h c cs rfl).1 (by rw [isOperandStart_of_isBlank hb]; decide)

theorem head?_ne {c : Char} (h : MayStart text) (hc : isOperandStart c = false) :
    text.head? ≠ some c := by
  cases text with
  | nil => simp
  | cons d ds =>
    intro he
    have hd : d = c := by simpa using he
    exact absurd (h d ds rfl).1 (by rw [hd, hc]; decide)

/-- Neither does a character that begins no expression come next behind a gap. -/
theorem head?_gap_ne {c : Char} {gap : List Char} (h : MayStart text) (hg : Blanks gap)
    (hc : isOperandStart c = false) (hb : isBlank c = false) : (gap ++ text).head? ≠ some c := by
  cases gap with
  | nil => exact h.head?_ne hc
  | cons b bs =>
    intro he
    have hbc : b = c := by simpa using he
    exact absurd (hg b (List.mem_cons_self ..)) (by rw [hbc, hb]; decide)

/-- What begins with no sign stops every operation before it. -/
theorem stops {rank : Nat} (h : MayStart text) (hs : NextNot isSign text) : Stops rank text := by
  match text, h, hs with
  | [], _, _ => exact .nil rank
  | c :: cs, h, hs =>
    obtain ⟨hc, hn⟩ := h c cs rfl
    by_cases hbang : c = '!'
    · subst hbang
      cases cs with
      | nil =>
        refine ⟨fun op _ hop => ?_, fun _ => by decide⟩
        cases op <;> exact absurd hop (by decide)
      | cons d ds =>
        have hd : d ≠ '=' := by simpa using hn rfl
        exact Starts.stops ⟨'!', d :: ds, rfl, hc, fun _ => ⟨d, ds, rfl, hd⟩⟩ hs
    · exact (Starts.cons hc hbang).stops hs

end MayStart

namespace Unfinished

variable {p : Production} {n : Nesting} {o : Nat} {text : List Char} {openings : List Opening}

/-- By induction on the relation: what is complete begins as an expression does, and so does what is
unfinished if nothing comes before it. -/
theorem mayStart (h : Unfinished p n o text openings) (hp : p ≠ .enclosed)
    (hm : ∀ marked, p ≠ .members marked) : MayStart text := by
  induction h with
  | noValue | noItem | noOperand => exact .nil
  | array _ _ _ ht | object _ _ _ ht | parenthesis _ ht =>
    rw [ht]
    exact .cons (by decide) (by decide)
  | item _ _ ih | ofValue _ _ ih | argument _ ih | ofOperand _ ih | looser _ _ ih | expr _ _ ih =>
    exact ih (by simp) (by simp)
  | moreItems h _ _ _ ht | noArgumentEnd h _ ht | moreArguments h _ _ _ ht | binary _ h _ _ _ ht
  | consequent h _ _ _ ht | noAlternate h _ _ _ _ ht | alternate h _ _ _ _ _ _ ht =>
    rw [ht]
    simpa using MayStart.of_starts (h.starts.append _)
  | @reference _ _ scope _ _ _ ht =>
    rw [ht]
    cases scope <;> exact .cons (by decide) (by decide)
  | call hname _ _ _ ht | select hname _ _ ht =>
    obtain ⟨c, cs, rfl, hc⟩ := hname.exists_cons
    have hbang : c ≠ '!' := ne_of_class hc (by decide)
    rw [ht]
    exact .cons (by simp [isOperandStart, hc]) hbang
  | @unary _ _ op gap rest _ _ _ hg _ ht ih =>
    rw [ht]
    intro c cs hcs
    obtain ⟨rfl, rfl⟩ := List.cons.inj hcs
    refine ⟨by cases op <;> decide, fun _ => ?_⟩
    exact (ih (by simp) (by simp)).head?_gap_ne hg (by decide) (by decide)
  | enclosed | unclosed => exact absurd rfl hp
  | noMember | memberKey | member | moreMembers => exact absurd rfl (hm _)

end Unfinished

end LocaleText
