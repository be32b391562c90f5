import LocaleText.Proofs.Layout.WellFormed

/-!
# The order of spans

Where the nodes of a resource stand in the source: each of them within the node above it, siblings
one behind another, and no blanks at either end.

* `Trimmed` are the texts without blanks at their ends, `Node.Spelled.trimmed` says it of all nodes
  but the gaps
* `Node.Row.bounds` and `Node.Row.pairwise` are what it means for spans to stand in a row
* `Node.Framed` is about operations, which their operands begin and end; `Node.framed_of_operation`
  says that they are so
* `Node.Arranged` is the property of one node
* `Resource.arranged_of_read` holds it of all nodes of what is read, the resource itself included
-/

namespace LocaleText

/-! ### Ends of texts -/

def Ended (text : List Char) : Prop := ∃ front c, text = front ++ [c] ∧ isBlank c = false

namespace Ended

variable {text : List Char}

/-- Only the end of a text counts. -/
theorem append (front : List Char) (h : Ended text) : Ended (front ++ text) := by
  obtain ⟨front', c, rfl, hc⟩ := h
  exact ⟨front ++ front', c, (List.append_assoc ..).symm, hc⟩

theorem concat (front : List Char) {c : Char} (hc : isBlank c = false) : Ended (front ++ [c]) :=
  ⟨front, c, rfl, hc⟩

theorem of_forall (hne : text ≠ []) (h : ∀ c ∈ text, isBlank c = false) : Ended text := by
  rw [← List.dropLast_concat_getLast hne]
  exact .concat _ (h _ (List.getLast_mem hne))

end Ended

/-- A text that is not empty and has a blank at neither end. -/
structure Trimmed (text : List Char) : Prop where
  begins : ∃ c rest, text = c :: rest ∧ isBlank c = false
  ended : Ended text

section Texts

variable {n : Nesting} {o : Nat} {text : List Char} {e : Expr} {ending : Ending} {name : String}

theorem isBlank_of_isWordChar {c : Char} (h : isWordChar c = true) : isBlank c = false :=
  (key_head (.inl h)).1

theorem isBlank_of_isQuote {c : Char} (h : isQuote c = true) : isBlank c = false :=
  (key_head (.inr h)).1

theorem IsName.ended (h : IsName text) : Ended text :=
  .of_forall h.1 fun c hc => isBlank_of_isWordChar (h.2 c hc)

theorem NameText.ended (h : NameText text name ending) : Ended text := by
  cases h with
  | bare hn => exact hn.ended
  | @opened _ quote hn _ => exact hn.ended.append [quote]
  | @quoted name quote _ hq => exact .concat (quote :: name) (isBlank_of_isQuote hq)

theorem SpellsValue.ended {v : Value} (h : SpellsValue n o text v) : Ended text := by
  cases h with
  | string _ hq _ ht =>
    rw [ht]
    exact .concat _ (isBlank_of_isQuote hq)
  | array _ _ _ ht =>
    rw [ht]
    exact .concat _ (by decide)
  | object _ _ _ _ ht =>
    rw [ht]
    exact .concat _ (by decide)

/-- Names, digits and closers are no blanks. -/
theorem SpellsOperand.ended (h : SpellsOperand n o text e ending) : Ended text := by
  cases h with
  | integer hd =>
    exact .of_forall hd.1 fun c hc => isBlank_of_isWordChar (isWordChar_of_isDigit (hd.2.1 c hc))
  | ident hn _ => exact hn.ended
  | reference hid ht =>
    rw [ht]
    exact hid.ended.append _
  | this => exact .concat [] (by decide)
  | value hv => exact hv.ended
  | parenthesis _ _ _ ht =>
    rw [ht]
    exact .concat _ (by decide)
  | call _ _ _ _ ht =>
    rw [ht]
    exact .concat _ (by decide)
  | select _ _ _ _ _ ht =>
    rw [ht]
    exact .concat _ (by decide)

/-- What an operation ends with, its last operand ends with. -/
theorem SpellsOperation.ended :
    ∀ {rank n o text e ending}, SpellsOperation rank n o text e ending → Ended text
  | _, _, _, _, _, _, .operand h => h.ended
  | _, _, _, _, _, _, .looser h => h.ended
  | _, _, _, _, _, _, .unary _ _ harg ht => by
    rw [ht]
    exact harg.ended.append _
  | _, _, _, _, _, _, .binary _ _ _ _ hright ht => by
    rw [ht]
    exact hright.ended.append _
  | _, _, _, _, _, _, .choice _ _ _ _ _ _ (.mk _ ha) ht => by
    rw [ht]
    exact ha.ended.append _

theorem SpellsValue.trimmed {v : Value} (h : SpellsValue n o text v) : Trimmed text := by
  obtain ⟨c, cs, ht, hc⟩ := h.exists_cons
  refine ⟨⟨c, cs, ht, ?_⟩, h.ended⟩
  rcases hc with hq | rfl | rfl
  · exact isBlank_of_isQuote hq
  · decide
  · decide

theorem SpellsOperation.trimmed {rank : Nat} (h : SpellsOperation rank n o text e ending) :
    Trimmed text := by
  obtain ⟨c, cs, ht, -⟩ := h.starts
  have hnot := h.starts.nextNot_isBlank
  rw [ht, nextNot_cons] at hnot
  exact ⟨⟨c, cs, ht, hnot⟩, h.ended⟩

/-- From the opening `<` to the closing `>`. -/
theorem SpellsEntry.trimmed {e : Entry} (h : SpellsEntry n o text e) : Trimmed text := by
  obtain ⟨inner, ht⟩ := h.ends
  refine ⟨⟨'<', inner ++ ['>'], ht, by decide⟩, ?_⟩
  rw [ht, ← List.cons_append]
  exact .concat _ (by decide)

end Texts

/-! ### Rows of spans -/

/-- A span ends where another one starts, or before. -/
def Span.Before (s t : Span) : Prop := s.stop ≤ t.start

/-- A span lies within another one. -/
structure Span.Within (s t : Span) : Prop where
  start : t.start ≤ s.start
  stop : s.stop ≤ t.stop

namespace Node

section Rows

variable {o : Nat} {text : List Char} {node : Node} {nodes : List Node}

/-- All nodes but the gaps have texts without blanks at their ends. -/
theorem Spelled.trimmed (h : Spelled o text node) (hgap : ∀ g, node ≠ .gap g) : Trimmed text := by
  cases h with
  | ident hn =>
    obtain ⟨c, cs, ht, hc⟩ := hn.exists_cons
    exact ⟨⟨c, cs, ht, (key_head hc).1⟩, hn.ended⟩
  | value hv => exact hv.trimmed
  | expr he => exact he.trimmed
  | gap _ => exact absurd rfl (hgap _)
  | entry he => exact he.trimmed

/-- What is spelled in a text has its span within that of the text. -/
theorem Row.bounds (h : Row o text nodes) : ∀ node ∈ nodes, node.span.Within (extent o text) := by
  intro node hm
  obtain ⟨front, part, back, ht, hnode⟩ := (h.of_mem hm).part
  rw [hnode.span, ht]
  refine ⟨Nat.le_add_right .., ?_⟩
  simp only [extent, byteLength_append]
  omega

/-- By induction on the row: all that follows a node starts behind its text. -/
theorem Row.pairwise (h : Row o text nodes) : (nodes.map span).Pairwise Span.Before := by
  induction h with
  | nil => exact .nil
  | @cons o front part _ _ _ nodes hnode hrest _ ih =>
    refine List.Pairwise.cons ?_ ih
    intro s hs
    obtain ⟨next, hnext, rfl⟩ := List.mem_map.mp hs
    have hstart : o + byteLength (front ++ part) ≤ next.span.start := (hrest.bounds next hnext).start
    rw [Span.Before, hnode.span]
    rw [byteLength_append] at hstart
    simp only [extent]
    omega

end Rows

/-! ### Operators -/

/-- An operation starts where its first operand starts and ends where its last operand ends. -/
def Framed : Expr → Prop
  | .binary _ left right s => s.start = left.span.start ∧ s.stop = right.span.stop
  | .conditional test _ alternate s => s.start = test.span.start ∧ s.stop = alternate.span.stop
  | _ => True

theorem framed_of_operand {n : Nesting} {o : Nat} {text : List Char} {e : Expr} {ending : Ending}
    (h : SpellsOperand n o text e ending) : Framed e := by
  cases h <;> trivial

/-- By induction on the levels up to the operands: a looser level adds nothing. -/
theorem framed_of_operation {rank o : Nat} {n : Nesting} {text : List Char} {e : Expr}
    {ending : Ending} (h : SpellsOperation rank n o text e ending) : Framed e := by
  obtain ⟨k, hk⟩ := Nat.exists_eq_add_of_le h.rank_le
  induction k generalizing rank with
  | zero =>
    obtain rfl : rank = 8 := hk.symm
    exact framed_of_operand h.operand_of_eight
  | succ k ih =>
    cases h with
    | operand h => exact framed_of_operand h
    | looser h => exact ih h (by omega)
    | unary => trivial
    | binary _ hleft _ _ hright ht =>
      refine ⟨?_, ?_⟩
      · rw [hleft.span]
        rfl
      · rw [hright.span, ht]
        simp [extent, Nat.add_assoc]
    | choice htest _ _ _ _ _ ha ht =>
      refine ⟨?_, ?_⟩
      · rw [htest.span]
        rfl
      · rw [ha.span, ht]
        simp [extent, Nat.add_assoc]

/-! ### Arranged nodes -/

/-- A node stands where it should in a source. -/
structure Arranged (source : List Char) (node : Node) : Prop where
  /-- Its span cuts the source between characters. -/
  cut : ∃ front part back, source = front ++ part ++ back ∧
    node.span.start = byteLength front ∧ node.span.stop = byteLength (front ++ part)
  bounds : node.span.start ≤ node.span.stop ∧ node.span.stop ≤ byteLength source
  trimmed : (∀ g, node ≠ gap g) → Trimmed (node.span.slice source)
  inside : ∀ child ∈ node.children, child.span.Within node.span
  row : (node.row.map span).Pairwise Span.Before
  /-- What stands under keys comes behind all of the row. -/
  keyed : ∀ child ∈ node.keyed, ∀ sibling ∈ node.row, sibling.span.Before child.span
  framed : ∀ e, node = expr e → Framed e

/-- The children of a spelled node stand in a row within it, wherever the node stands. -/
theorem Spelled.arranged {source front part back : List Char} {node : Node}
    (h : Spelled (byteLength front) part node) (hs : source = front ++ part ++ back) :
    node.Arranged source := by
  have hspan := h.span
  obtain ⟨hrow, hkeyed⟩ := h.row
  refine ⟨⟨front, part, back, hs, ?_, ?_⟩, ⟨?_, ?_⟩, fun hgap => ?_, fun child hchild => ?_,
    hrow.pairwise, fun child hchild sibling hsibling => ?_, fun e he => ?_⟩
  · rw [hspan]
    rfl
  · rw [hspan, byteLength_append]
    rfl
  · rw [hspan]
    exact Nat.le_add_right ..
  · rw [hspan, hs, byteLength_append, byteLength_append]
    exact Nat.le_add_right ..
  · rw [hspan, slice_extent front back hs rfl]
    exact h.trimmed hgap
  · rw [hspan]
    exact (h.child hchild).bounds child (List.mem_singleton_self child)
  · have hpair := (hkeyed child hchild).pairwise
    rw [List.map_append, List.pairwise_append] at hpair
    exact hpair.2.2 _ (List.mem_map_of_mem hsibling) _ (List.mem_singleton_self _)
  · subst he
    cases h with
    | expr hexpr => exact framed_of_operation hexpr

end Node

namespace Resource

variable {limit : Option Nat} {source : String} {r : Resource}

/-- In a resource that is read, the nodes lie within one another, in the order of the source and
without blanks at their ends. -/
theorem arranged_of_read (h : read limit source = .ok r) :
    r.span = ⟨0, byteLength source.toList⟩ ∧ (r.body.map Item.span).Pairwise Span.Before ∧
      ∀ node, r.Contains node → node.Arranged source.toList ∧ node.span.Within r.span := by
  obtain ⟨hbody, hspan⟩ := ofChars_eq_ok_iff.mp (read_eq_ok_iff_ofChars.mp h)
  have hwhole : r.span = ⟨0, byteLength source.toList⟩ := by
    rw [hspan, extent, Nat.zero_add]
  refine ⟨hwhole, ?_, fun node hnode => ?_⟩
  · have hitems : Item.span = Node.span ∘ Item.node := by
      funext item
      cases item <;> rfl
    rw [hitems, ← List.map_map]
    exact (Node.row_of_body hbody).pairwise
  · obtain ⟨front, part, back, hpart, hspelled⟩ := (row_of_contains h hnode).part
    rw [Nat.zero_add] at hspelled
    have harranged := hspelled.arranged hpart
    refine ⟨harranged, ?_, ?_⟩
    · rw [hwhole]
      exact Nat.zero_le _
    · rw [hwhole]
      exact harranged.bounds.2

/-- Characters of several bytes, an index without commas, and blanks at every place. -/
theorem arranged_entity : ∃ r, read none " <é[ 1 'b' ~ ]  [ $x  ? - 1 : f( 2 ) ]  c : 'ö' > " = .ok r ∧
    r.span = ⟨0, byteLength " <é[ 1 'b' ~ ]  [ $x  ? - 1 : f( 2 ) ]  c : 'ö' > ".toList⟩ ∧
    (r.body.map Item.span).Pairwise Span.Before ∧ ∀ node, r.Contains node →
      node.Arranged " <é[ 1 'b' ~ ]  [ $x  ? - 1 : f( 2 ) ]  c : 'ö' > ".toList ∧
        node.span.Within r.span := by
  obtain ⟨r, hr⟩ : ∃ r, read none " <é[ 1 'b' ~ ]  [ $x  ? - 1 : f( 2 ) ]  c : 'ö' > " = .ok r :=
    exists_of_isOk (by decide +kernel)
  exact ⟨r, hr, arranged_of_read hr⟩

end Resource

end LocaleText
