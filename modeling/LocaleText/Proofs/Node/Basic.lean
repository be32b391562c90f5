import LocaleText.Proofs.Grammar.Keyed
import LocaleText.Proofs.Layout.Reading
import LocaleText.Proofs.Tiling

/-!
# The nodes of a tree

Every part of a resource that has a span, at whatever depth, and the text that it is spelled by.

* `Node.row` are the parts directly below a node that keep the order of the source, `Node.keyed` those
  that stand under keys: a key that comes again takes its value to the place of the first one
* `Node.Reaches` and `Resource.Contains` lead from a node to all nodes below it
* `Node.Spelled` says that a text, at a byte offset, spells a node
* `Node.Row` are nodes that are spelled one behind another; `Node.Spelled.row` is the step from a node
  to its children, `Resource.row_of_contains` the result for all nodes of a resource that is read
-/

namespace LocaleText

/-- A part of a resource that has a span. -/
inductive Node
  | ident (id : Ident)
  | value (v : Value)
  | expr (e : Expr)
  | gap (g : Gap)
  | entry (e : Entry)

namespace Node

def span : Node → Span
  | ident id => id.span
  | value v => v.span
  | expr e => e.span
  | gap g => g.span
  | entry e => e.span

/-! ### Children -/

/-- The children that follow one another in the source. -/
def row : Node → List Node
  | ident _ => []
  | gap _ => []
  | value (.array items _) => items.map expr
  | value _ => []
  | expr (.ident id) => [ident id]
  | expr (.reference _ id _) => [ident id]
  | expr (.value v) => [value v]
  | expr (.parenthesis inner _) => [expr inner]
  | expr (.call callee args _) => ident callee :: args.map expr
  | expr (.select _ base key _) => [ident base, expr key]
  | expr (.unary _ arg _) => [expr arg]
  | expr (.binary _ left right _) => [expr left, expr right]
  | expr (.conditional test consequent alternate _) => [expr test, expr consequent, expr alternate]
  | expr _ => []
  | entry (.entity e) =>
    ident e.id :: ((e.index.getD []).map expr ++ [gap e.before, value e.value, gap e.behind])
  | entry (.macroDef m) => ident m.id :: (m.parameters.map ident ++ [expr m.body])

/-- The children that stand under keys: the members of an object and the attributes of an entry. -/
def keyed : Node → List Node
  | value (.object members _ _) => members.map fun member => expr member.2
  | entry (.entity e) => (e.attributes.getD []).map fun a => value a.2
  | entry (.macroDef m) => (m.attributes.getD []).map fun a => value a.2
  | _ => []

def children (node : Node) : List Node := node.row ++ node.keyed

/-- From a node to itself and to all nodes below it. -/
inductive Reaches : Node → Node → Prop
  | refl {node : Node} : Reaches node node
  | child {node next below : Node} : next ∈ node.children → Reaches next below → Reaches node below

end Node

def Item.node : Item → Node
  | .entry e => .entry e
  | .gap g => .gap g

/-- The nodes of a resource. -/
def Resource.Contains (r : Resource) (node : Node) : Prop :=
  ∃ item ∈ r.body, item.node.Reaches node

namespace Node

/-! ### Texts of nodes -/

/-- A text, at a byte offset, spells a node. -/
inductive Spelled : Nat → List Char → Node → Prop
  | ident {o : Nat} {text : List Char} {name : String} {ending : Ending} :
      NameText text name ending → Spelled o text (ident ⟨name, extent o text⟩)
  | value {n : Nesting} {o : Nat} {text : List Char} {v : Value} :
      SpellsValue n o text v → Spelled o text (value v)
  | expr {n : Nesting} {o : Nat} {text : List Char} {e : Expr} {ending : Ending} :
      SpellsOperation 0 n o text e ending → Spelled o text (expr e)
  | gap {o : Nat} {text : List Char} : Blanks text → Spelled o text (gap (gapAt o text))
  | entry {n : Nesting} {o : Nat} {text : List Char} {e : Entry} :
      SpellsEntry n o text e → Spelled o text (entry e)

/-- Nodes that are spelled one behind another, with any text before, between and behind them. -/
inductive Row : Nat → List Char → List Node → Prop
  | nil {o : Nat} {text : List Char} : Row o text []
  | cons {o : Nat} {front part rest text : List Char} {node : Node} {nodes : List Node} :
      Spelled (o + byteLength front) part node → Row (o + byteLength (front ++ part)) rest nodes →
      text = front ++ part ++ rest → Row o text (node :: nodes)

section Texts

variable {n : Nesting} {o : Nat} {text text' : List Char} {e : Expr} {ending : Ending} {node : Node}
  {nodes nodes' : List Node}

/-- The span of a node is the extent of its text. -/
theorem Spelled.span (h : Spelled o text node) : node.span = extent o text := by
  cases h with
  | ident _ => rfl
  | value hv => exact hv.span
  | expr he => exact he.span
  | gap _ => rfl
  | entry he => exact he.span

namespace Row

theorem single (h : Spelled o text node) : Row o text [node] :=
  have htext : text = [] ++ text ++ [] := by simp
  .cons (by simpa using h) .nil htext

/-- A text before the first node. -/
theorem skip (front : List Char) (h : Row (o + byteLength front) text nodes) :
    Row o (front ++ text) nodes := by
  cases h with
  | nil => exact .nil
  | @cons _ front' part rest _ _ _ hnode hrest ht =>
    have htext : front ++ text = front ++ front' ++ part ++ rest := by simp [ht]
    refine .cons ?_ ?_ htext
    · simpa [Nat.add_assoc] using hnode
    · simpa [Nat.add_assoc] using hrest

/-- Two rows one behind the other. -/
theorem append (h : Row o text nodes) (h' : Row (o + byteLength text) text' nodes') :
    Row o (text ++ text') (nodes ++ nodes') := by
  induction h with
  | nil => exact h'.skip _
  | cons hnode _ ht ih =>
    refine .cons hnode (ih ?_) (by rw [ht]; simp)
    simpa [ht, Nat.add_assoc] using h'

/-- A text behind the last node. -/
theorem extend (behind : List Char) (h : Row o text nodes) : Row o (text ++ behind) nodes := by
  have hnone : Row (o + byteLength text) behind [] := .nil
  simpa using h.append hnone

/-- One node of a row. -/
theorem of_mem (h : Row o text nodes) (hm : node ∈ nodes) : Row o text [node] := by
  induction h with
  | nil => cases hm
  | @cons _ front part rest text _ _ hnode _ ht ih =>
    subst ht
    rcases List.mem_cons.mp hm with rfl | hm
    · exact .cons hnode .nil rfl
    · exact (ih hm).skip (front ++ part)

/-- The text of a node of a row, and where it stands. -/
theorem part (h : Row o text [node]) : ∃ front part back, text = front ++ part ++ back ∧
    Spelled (o + byteLength front) part node := by
  cases h with
  | cons hnode _ ht => exact ⟨_, _, _, ht, hnode⟩

/-- What stands in the text of a node stands in every text around it. -/
theorem trans {below : Node} (h : Row o text [node])
    (hbelow : ∀ {o part}, Spelled o part node → Row o part [below]) : Row o text [below] := by
  obtain ⟨front, part, back, rfl, hnode⟩ := h.part
  exact ((hbelow hnode).skip front).extend back

end Row

/-! ### Lists of nodes -/

theorem row_of_items : ∀ {n o text es}, SpellsItems n o text es → Row o text (es.map expr)
  | _, _, _, _, .nil => .nil
  | _, _, _, _, .cons (.mk _ he) _ _ hrest ht => by
    rw [ht]
    exact (((Row.single (.expr he)).extend _).extend _).append (row_of_items hrest)

theorem row_of_sequence : ∀ {n o text es}, SpellsSequence n o text es → Row o text (es.map expr)
  | _, _, _, _, .last (.mk _ he) _ ht => by
    rw [ht]
    exact (Row.single (.expr he)).extend _
  | _, _, _, _, .cons (.mk _ he) _ _ hrest ht => by
    rw [ht]
    exact ((((Row.single (.expr he)).extend _).extend _).extend _).append (row_of_sequence hrest)

/-- The arguments of a call stand in order. -/
theorem row_of_arguments {es : List Expr} (h : SpellsArguments n o text es) :
    Row o text (es.map expr) := by
  cases h with
  | none => exact .nil
  | some h => exact row_of_sequence h

/-- The value of a member that is written. -/
theorem row_of_member : ∀ {n o text ms} {m : Member}, SpellsMembers n o text ms → m ∈ ms →
    Row o text [expr m.value]
  | _, _, _, _, _, .nil, hm => by cases hm
  | _, _, _, _, m, @SpellsMembers.cons _ _ _ key _ blanks separator rest _ _ _ _ (.mk _ he) _ _
      hrest ht, hm => by
    rw [ht]
    rcases List.mem_cons.mp hm with rfl | hm
    · exact ((((Row.single (.expr he)).skip (m.mark ++ key)).extend blanks).extend separator).extend rest
    · exact (row_of_member hrest hm).skip _

/-- An attribute by itself, since its key may come again. -/
theorem row_of_attribute {attributes : List (String × Value)} {a : String × Value}
    (h : SpellsAttributes n o text attributes) (ha : a ∈ attributes) : Row o text [value a.2] := by
  induction h with
  | @last _ key _ gap _ _ _ _ hv _ ht =>
    obtain rfl := List.mem_singleton.mp ha
    rw [ht]
    exact ((Row.single (.value hv)).skip key).extend gap
  | @cons _ key _ gap gap' rest _ _ _ _ _ hv _ _ _ ht ih =>
    rw [ht]
    rcases List.mem_cons.mp ha with rfl | ha
    · exact (((((Row.single (.value hv)).skip key).extend gap).extend [',']).extend gap').extend rest
    · exact (ih ha).skip _

theorem row_of_parameters {ids : List Ident} (h : SpellsParameters o text ids) :
    Row o text (ids.map ident) := by
  induction h with
  | nil => exact .nil
  | @last _ _ gap _ _ _ hid _ ht =>
    rw [ht]
    exact ((Row.single (.ident hid)).skip [Scope.variable.sigil]).extend gap
  | @cons _ _ gap gap' _ _ _ _ _ hid _ _ _ ht ih =>
    rw [ht]
    exact (((((Row.single (.ident hid)).skip [Scope.variable.sigil]).extend gap).extend [',']).extend
      gap').append ih

theorem row_of_index {es : Option (List Expr)} (h : SpellsIndex n o text es) :
    Row o text ((es.getD []).map expr) := by
  cases h with
  | none => exact .nil
  | @some gap₁ _ _ _ _ hitems ht =>
    rw [ht]
    exact ((row_of_items hitems).skip (['['] ++ gap₁)).extend [']']

theorem row_of_tail {attrs : Option Attributes} {a : String × Value} (h : SpellsTail n o text attrs)
    (ha : a ∈ attrs.getD []) : Row o text [value a.2] := by
  cases h with
  | bare => cases ha
  | attributes hattributes =>
    exact (row_of_attribute hattributes (mem_attributesOf ha)).extend ['>']

/-! ### From a node to its children -/

theorem row_of_operand (h : SpellsOperand n o text e ending) : Row o text (expr e).row := by
  cases h with
  | integer _ => exact .nil
  | this => exact .nil
  | ident hn _ => exact .single (.ident (.bare hn))
  | @reference _ _ scope _ _ _ _ hid ht =>
    rw [ht]
    exact (Row.single (.ident hid)).skip [scope.sigil]
  | value hv => exact .single (.value hv)
  | @parenthesis _ _ gap _ gap' _ _ _ _ hinner _ ht =>
    obtain ⟨_, hinner⟩ := hinner
    rw [ht]
    exact (((Row.single (.expr hinner)).skip (['('] ++ gap)).extend gap').extend [')']
  | @call _ _ name gap _ _ _ hn _ _ hargs ht =>
    have hname : Row o (name ++ ['('] ++ gap) [ident ⟨String.ofList name, extent o name⟩] :=
      ((Row.single (.ident (.bare hn))).extend ['(']).extend gap
    rw [ht]
    exact (hname.append (row_of_arguments hargs)).extend [')']
  | @select _ _ selection name gap _ gap' _ _ _ hn _ _ hkey _ ht =>
    obtain ⟨_, hkey⟩ := hkey
    have hname : Row o (name ++ selection.opener ++ gap)
        [ident ⟨String.ofList name, extent o name⟩] :=
      ((Row.single (.ident (.bare hn))).extend selection.opener).extend gap
    rw [ht]
    exact ((hname.append (.single (.expr hkey))).extend gap').extend [']']

/-- The operands of an operation stand on both sides of the operator. -/
theorem row_of_operation : ∀ {rank n o text e ending}, SpellsOperation rank n o text e ending →
    Row o text (expr e).row
  | _, _, _, _, _, _, .operand h => row_of_operand h
  | _, _, _, _, _, _, .looser h => row_of_operation h
  | _, _, _, _, _, _, @SpellsOperation.unary _ _ op gap₁ _ _ _ _ _ _ harg ht => by
    rw [ht]
    exact (Row.single (.expr (harg.loosen (Nat.zero_le _)))).skip ([op.token] ++ gap₁)
  | _, _, _, _, _, _, @SpellsOperation.binary _ _ _ op _ gap₁ gap₂ _ _ _ _ _ _ _ hl _ _ hr ht => by
    rw [ht]
    have hleft := ((Row.single (.expr (hl.loosen (Nat.zero_le _)))).extend gap₁).extend op.token
    exact (hleft.extend gap₂).append (.single (.expr (hr.loosen (Nat.zero_le _))))
  | _, _, _, _, _, _, @SpellsOperation.choice _ _ _ gap₁ gap₂ _ gap₃ gap₄ _ _ _ _ _ _ _ _ htest _ _
      (.mk _ hc) _ _ (.mk _ ha) ht => by
    rw [ht]
    have hfirst := ((Row.single (.expr (htest.loosen (Nat.zero_le _)))).extend gap₁).extend ['?']
    have hsecond := ((hfirst.extend gap₂).append (.single (.expr hc))).extend gap₃
    exact ((hsecond.extend [':']).extend gap₄).append (.single (.expr ha))

/-- The children of a node that stand in a row, and behind them each of those under keys. -/
theorem Spelled.row (h : Spelled o text node) :
    Row o text node.row ∧ ∀ child ∈ node.keyed, Row o text (node.row ++ [child]) := by
  cases h with
  | ident _ => exact ⟨.nil, by simp [keyed]⟩
  | gap _ => exact ⟨.nil, by simp [keyed]⟩
  | expr he => exact ⟨row_of_operation he, by simp [keyed]⟩
  | value hv =>
    cases hv with
    | string => exact ⟨.nil, by simp [keyed]⟩
    | @array _ _ gap _ _ _ _ _ hitems ht =>
      rw [ht]
      exact ⟨((row_of_items hitems).skip (['['] ++ gap)).extend [']'], by simp [keyed]⟩
    | @object _ _ gap _ _ _ _ _ hmembers _ ht =>
      refine ⟨.nil, fun child hchild => ?_⟩
      obtain ⟨entry, hentry, rfl⟩ := List.mem_map.mp hchild
      obtain ⟨m, hm, rfl⟩ := Member.mem_entries hentry
      rw [ht]
      exact ((row_of_member hmembers hm).skip (['\x7b'] ++ gap)).extend ['\x7d']
  | entry he =>
    cases he with
    | @entity id index before _ behind tail _ _ _ _ _ _ hid hindex hb _ hv hb' htail ht =>
      have hname : Row o (['<'] ++ id) [_] := (Row.single (.ident hid)).skip ['<']
      have hvalue := ((hname.append (row_of_index hindex)).append (.single (.gap hb))).append
        (.single (.value hv))
      have hall := hvalue.append (.single (.gap hb'))
      refine ⟨?_, fun child hchild => ?_⟩
      · rw [ht]
        simpa [Node.row] using hall.extend tail
      · obtain ⟨a, ha, rfl⟩ := List.mem_map.mp hchild
        rw [ht]
        simpa [Node.row] using hall.append (row_of_tail htail ha)
    | @macroDef id gap₁ _ gap₂ gap₃ _ gap₄ gap₅ tail _ _ _ _ _ _ _ hid _ hparams _ _ hbody _ _ htail
        ht =>
      obtain ⟨_, hbody⟩ := hbody
      have hname : Row o (['<'] ++ id ++ ['('] ++ gap₁) [_] :=
        (((Row.single (.ident hid)).skip ['<']).extend ['(']).extend gap₁
      have hopener := (((hname.append (row_of_parameters hparams)).extend [')']).extend gap₂).extend
        ['\x7b']
      have hall := ((((hopener.extend gap₃).append (.single (.expr hbody))).extend gap₄).extend
        ['\x7d']).extend gap₅
      refine ⟨?_, fun child hchild => ?_⟩
      · rw [ht]
        simpa [Node.row] using hall.extend tail
      · obtain ⟨a, ha, rfl⟩ := List.mem_map.mp hchild
        rw [ht]
        simpa [Node.row] using hall.append (row_of_tail htail ha)

/-- The step to a child. -/
theorem Spelled.child {child : Node} (h : Spelled o text node) (hc : child ∈ node.children) :
    Row o text [child] := by
  rcases List.mem_append.mp hc with hc | hc
  · exact h.row.1.of_mem hc
  · exact (h.row.2 child hc).of_mem (List.mem_append_right _ (List.mem_singleton_self child))

/-- By induction on the way down. -/
theorem Spelled.reaches {below : Node} (h : Spelled o text node) (hr : node.Reaches below) :
    Row o text [below] := by
  induction hr generalizing o text with
  | refl => exact .single h
  | child hnext _ ih => exact (h.child hnext).trans ih

/-! ### Resources -/

/-- Entries and the blanks between them. -/
theorem row_of_body {items : List Item} (h : SpellsBody n o text items) :
    Row o text (items.map Item.node) := by
  have hgap : ∀ {o : Nat} {gap : List Char}, Blanks gap →
      Row o gap ((gapItems o gap).map Item.node) := by
    intro o gap hb
    by_cases hg : gap = []
    · simpa [gapItems, hg] using Row.nil
    · simpa [gapItems, hg, Item.node] using Row.single (.gap hb)
  induction h with
  | done hb => exact hgap hb
  | entry hb he _ ht ih =>
    rw [ht]
    have hboth := ((hgap hb).append (.single (.entry he))).append ih
    simpa [Item.node] using hboth

end Texts

end Node

/-- Every node of a resource that is read is spelled in the source. -/
theorem Resource.row_of_contains {limit : Option Nat} {source : String} {r : Resource} {node : Node}
    (h : read limit source = .ok r) (hc : r.Contains node) : Node.Row 0 source.toList [node] := by
  obtain ⟨hbody, -⟩ := ofChars_eq_ok_iff.mp (read_eq_ok_iff_ofChars.mp h)
  obtain ⟨item, hitem, hreaches⟩ := hc
  have hrow := (Node.row_of_body hbody).of_mem (List.mem_map_of_mem hitem)
  exact hrow.trans fun hspelled => hspelled.reaches hreaches

end LocaleText
