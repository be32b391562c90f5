import LocaleText.Proofs.Layout.WellFormed
import LocaleText.Proofs.Nesting.Limit

/-!
# The height of a tree

The limit counts levels of nesting, and operators side by side take none. A chain of operators of
one level groups to the left, so that its tree gets one node higher with every operand: the limit
bounds how high a tree is beside such chains, but not how high it is.

* `Resource.height` is the length of the longest chain of nodes each of which holds the next;
  `Resource.heightBeside` leaves out the steps from an infix operator to its left operand
* `Expr.heightBy_le` and `heightEntries_le`: what a well-formed tree needs bounds its height beside
  the chains
* `leftChain` is the tree of a chain of operators, `Resource.exists_height` reads it
* `Resource.height_of_read` is the bound under a limit, beside the chains and for the limit 0
* `Resource.height_unbounded` says that there is no bound on the whole height
-/

namespace LocaleText

/-! ### Heights -/

mutual

/-- The height of a value. The step from an infix operator to its left operand counts `left`. -/
def Value.heightBy (left : Nat) : Value → Nat
  | .string .. => 1
  | .array items _ => 1 + heightItems left items
  | .object members _ _ => 1 + heightMembers left members

/-- The height of an expression, names aside. -/
def Expr.heightBy (left : Nat) : Expr → Nat
  | .integer .. => 1
  | .ident .. => 1
  | .reference .. => 1
  | .this .. => 1
  | .value v => 1 + v.heightBy left
  | .parenthesis inner _ => 1 + inner.heightBy left
  | .call _ args _ => 1 + heightItems left args
  | .select _ _ key _ => 1 + key.heightBy left
  | .unary _ arg _ => 1 + arg.heightBy left
  | .binary _ first second _ => max (left + first.heightBy left) (1 + second.heightBy left)
  | .conditional test consequent alternate _ =>
    1 + max (test.heightBy left) (max (consequent.heightBy left) (alternate.heightBy left))

def heightItems (left : Nat) : List Expr → Nat
  | [] => 0
  | item :: items => max (item.heightBy left) (heightItems left items)

def heightMembers (left : Nat) : List (String × Expr) → Nat
  | [] => 0
  | (_, item) :: members => max (item.heightBy left) (heightMembers left members)

end

def Attributes.heightBy (left : Nat) : Attributes → Nat
  | [] => 0
  | (_, v) :: attributes => max (v.heightBy left) (Attributes.heightBy left attributes)

def Entry.heightBy (left : Nat) : Entry → Nat
  | .entity e => 1 + max (heightItems left (e.index.getD []))
      (max (e.value.heightBy left) (Attributes.heightBy left (e.attributes.getD [])))
  | .macroDef m =>
    1 + max (m.body.heightBy left) (Attributes.heightBy left (m.attributes.getD []))

def heightEntries (left : Nat) : List Entry → Nat
  | [] => 0
  | e :: es => max (e.heightBy left) (heightEntries left es)

namespace Resource

/-- The height of a tree: the length of the longest chain of nodes each of which holds the next. -/
def height (r : Resource) : Nat := 1 + heightEntries 1 r.entries

/-- The height of a tree when a chain of operators that groups to the left counts as one node. -/
def heightBeside (r : Resource) : Nat := 1 + heightEntries 0 r.entries

end Resource

/-! ### Heights without spans -/

section Bare

variable (left : Nat)

mutual

theorem Value.heightBy_bare : ∀ v : Value, v.bare.heightBy left = v.heightBy left
  | .string .. => rfl
  | .array items _ => by simp only [Value.bare, Value.heightBy, heightItems_bareItems items]
  | .object members _ _ => by
    simp only [Value.bare, Value.heightBy, heightMembers_bareMembers members]

/-- Spans do not count. -/
theorem Expr.heightBy_bare : ∀ e : Expr, e.bare.heightBy left = e.heightBy left
  | .integer .. => rfl
  | .ident .. => rfl
  | .reference .. => rfl
  | .this .. => rfl
  | .value v => by simp only [Expr.bare, Expr.heightBy, v.heightBy_bare]
  | .parenthesis inner _ => by simp only [Expr.bare, Expr.heightBy, inner.heightBy_bare]
  | .call _ args _ => by simp only [Expr.bare, Expr.heightBy, heightItems_bareItems args]
  | .select _ _ key _ => by simp only [Expr.bare, Expr.heightBy, key.heightBy_bare]
  | .unary _ arg _ => by simp only [Expr.bare, Expr.heightBy, arg.heightBy_bare]
  | .binary _ first second _ => by
    simp only [Expr.bare, Expr.heightBy, first.heightBy_bare, second.heightBy_bare]
  | .conditional test consequent alternate _ => by
    simp only [Expr.bare, Expr.heightBy, test.heightBy_bare, consequent.heightBy_bare,
      alternate.heightBy_bare]

theorem heightItems_bareItems : ∀ items : List Expr,
    heightItems left (bareItems items) = heightItems left items
  | [] => rfl
  | item :: items => by
    simp only [bareItems, heightItems, item.heightBy_bare, heightItems_bareItems items]

theorem heightMembers_bareMembers : ∀ members : List (String × Expr),
    heightMembers left (bareMembers members) = heightMembers left members
  | [] => rfl
  | (_, item) :: members => by
    simp only [bareMembers, heightMembers, item.heightBy_bare, heightMembers_bareMembers members]

end

theorem Attributes.heightBy_bare (attributes : Attributes) :
    attributes.bare.heightBy left = attributes.heightBy left := by
  induction attributes with
  | nil => rfl
  | cons a attributes ih =>
    show max (a.2.bare.heightBy left) (Attributes.heightBy left (Attributes.bare attributes)) = _
    rw [ih, a.2.heightBy_bare]
    rfl

theorem Entry.heightBy_bare (e : Entry) : e.bare.heightBy left = e.heightBy left := by
  have hattributes : ∀ attributes : Option Attributes,
      Attributes.heightBy left ((attributes.map Attributes.bare).getD []) =
        Attributes.heightBy left (attributes.getD []) := by
    intro attributes
    cases attributes with
    | none => rfl
    | some attributes => exact attributes.heightBy_bare left
  cases e with
  | entity e =>
    have hindex : heightItems left ((e.index.map bareItems).getD []) =
        heightItems left (e.index.getD []) := by
      cases e.index with
      | none => rfl
      | some items => exact heightItems_bareItems left items
    simp only [Entry.bare, Entry.heightBy, Entity.bare, hindex, hattributes, e.value.heightBy_bare]
  | macroDef m =>
    simp only [Entry.bare, Entry.heightBy, Macro.bare, hattributes, m.body.heightBy_bare]

/-- Entries that are the same up to spans and blanks have the same height. -/
theorem heightEntries_congr {es es' : List Entry}
    (h : es.map Entry.bare = es'.map Entry.bare) : heightEntries left es = heightEntries left es' := by
  have hbare : ∀ es : List Entry,
      heightEntries left (es.map Entry.bare) = heightEntries left es := by
    intro es
    induction es with
    | nil => rfl
    | cons e es ih => rw [List.map_cons, heightEntries, heightEntries, ih, e.heightBy_bare]
  rw [← hbare es, h, hbare es']

end Bare

/-! ### Heights beside chains -/

mutual

/-- A level that counts can hold nine nodes one below the other: a choice, the six levels of infix
operators, an operand, and a value as an operand. -/
theorem Value.heightBy_le : ∀ v : Value, v.WellFormed → v.heightBy 0 ≤ 9 * v.need
  | .string .., _ => by simp only [Value.heightBy, Value.need]; omega
  | .array items _, hw => by
    have := heightItems_le items hw
    simp only [Value.heightBy, Value.need]
    omega
  | .object members _ _, hw => by
    have := heightMembers_le members hw.2.2
    simp only [Value.heightBy, Value.need]
    omega

/-- Within a level a node lower down binds tighter, but for left operands. -/
theorem Expr.heightBy_le : ∀ e : Expr, e.WellFormed →
    e.heightBy 0 + e.rank ≤ 9 * e.inside + 9
  | .integer .., _ => Nat.le_refl 9
  | .ident .., _ => Nat.le_refl 9
  | .reference .., _ => Nat.le_refl 9
  | .this .., _ => Nat.le_refl 9
  | .value v, hw => by
    have := v.heightBy_le hw
    simp only [Expr.heightBy, Expr.rank, Expr.inside]
    omega
  | .parenthesis inner _, hw => by
    have := inner.heightBy_le hw
    simp only [Expr.heightBy, Expr.rank, Expr.inside]
    omega
  | .call _ args _, hw => by
    have := heightItems_le args hw.2
    simp only [Expr.heightBy, Expr.rank, Expr.inside]
    omega
  | .select _ _ key _, hw => by
    have := key.heightBy_le hw.2
    simp only [Expr.heightBy, Expr.rank, Expr.inside]
    omega
  | .unary _ arg _, hw => by
    have := arg.heightBy_le hw.2
    have := hw.1
    simp only [Expr.heightBy, Expr.rank, Expr.inside]
    omega
  | .binary op first second _, hw => by
    have := first.heightBy_le hw.1.2
    have := second.heightBy_le hw.2.2
    have := hw.1.1
    have := hw.2.1
    simp only [Expr.heightBy, Expr.rank, Expr.inside]
    omega
  | .conditional test consequent alternate _, hw => by
    have := test.heightBy_le hw.1.2
    have := consequent.heightBy_le hw.2.1
    have := alternate.heightBy_le hw.2.2
    have := hw.1.1
    simp only [Expr.heightBy, Expr.rank, Expr.inside]
    omega

/-- Expressions side by side are as high as the highest of them. -/
theorem heightItems_le : ∀ items : List Expr, WellFormedItems items →
    heightItems 0 items ≤ 9 * needItems items
  | [], _ => Nat.le_refl 0
  | item :: items, hw => by
    have := item.heightBy_le hw.1
    have := heightItems_le items hw.2
    simp only [heightItems, needItems]
    omega

theorem heightMembers_le : ∀ members : List (String × Expr), WellFormedMembers members →
    heightMembers 0 members ≤ 9 * needMembers members
  | [], _ => Nat.le_refl 0
  | (_, item) :: members, hw => by
    have := item.heightBy_le hw.1.2
    have := heightMembers_le members hw.2
    simp only [heightMembers, needMembers]
    omega

end

theorem Attributes.heightBy_le {attributes : Attributes}
    (h : ∀ a ∈ attributes, a.2.WellFormed) : attributes.heightBy 0 ≤ 9 * attributes.need := by
  induction attributes with
  | nil => exact Nat.le_refl 0
  | cons a attributes ih =>
    obtain ⟨ha, hattributes⟩ := List.forall_mem_cons.mp h
    have hv := a.2.heightBy_le ha
    have hrest := ih hattributes
    show max (a.2.heightBy 0) (Attributes.heightBy 0 attributes) ≤
      9 * max a.2.need (Attributes.need attributes)
    omega

/-- An entry is one node above its parts. -/
theorem Entry.heightBy_le {e : Entry} (h : e.WellFormed) : e.heightBy 0 ≤ 9 * e.need + 1 := by
  have hattributes : ∀ attrs : Option Attributes,
      (∀ attributes : Attributes, attrs = some attributes → attributes.WellFormed) →
      Attributes.heightBy 0 (attrs.getD []) ≤ 9 * Attributes.need (attrs.getD []) := by
    intro attrs hw
    cases attrs with
    | none => exact Nat.le_refl 0
    | some attributes => exact Attributes.heightBy_le (hw attributes rfl).value
  cases e with
  | entity e =>
    obtain ⟨-, hindex, hvalue, hattrs⟩ := h
    have hv := e.value.heightBy_le hvalue
    have ha := hattributes e.attributes hattrs
    have hi : heightItems 0 (e.index.getD []) ≤ 9 * needItems (e.index.getD []) := by
      cases hindex' : e.index with
      | none => exact Nat.le_refl 0
      | some items => exact heightItems_le items (hindex items hindex')
    simp only [Entry.heightBy, Entry.need, Entity.need]
    omega
  | macroDef m =>
    obtain ⟨-, -, hbody, hattrs⟩ := h
    have hb := m.body.heightBy_le hbody
    have ha := hattributes m.attributes hattrs
    simp only [Entry.heightBy, Entry.need, Macro.need, Expr.need]
    omega

theorem Value.need_pos (v : Value) : 0 < v.need := by
  cases v <;> simp only [Value.need] <;> omega

theorem Entry.need_pos (e : Entry) : 0 < e.need := by
  cases e with
  | entity e =>
    have := e.value.need_pos
    simp only [Entry.need, Entity.need]
    omega
  | macroDef m =>
    simp only [Entry.need, Macro.need, Expr.need]
    omega

/-- Entries side by side are as high as the highest of them. -/
theorem heightEntries_le {es : List Entry} (h : ∀ e ∈ es, e.WellFormed) :
    heightEntries 0 es ≤ 9 * needEntries es + 1 := by
  induction es with
  | nil => exact Nat.zero_le _
  | cons e es ih =>
    obtain ⟨he, hes⟩ := List.forall_mem_cons.mp h
    have hfirst := Entry.heightBy_le he
    have hrest := ih hes
    simp only [heightEntries, needEntries]
    omega

/-! ### Chains of operators -/

/-- The tree of `1+1+...+1` with `k` operators. -/
def leftChain : Nat → Expr
  | 0 => .integer 1 default
  | k + 1 => .binary .add (leftChain k) (.integer 1 default) default

def leftChainText : Nat → List Char
  | 0 => ['1']
  | k + 1 => leftChainText k ++ [] ++ BinaryOp.add.token ++ [] ++ ['1']

/-- By induction: one more operand behind the chain. -/
theorem leftChain_layout (k : Nat) : ExprLayout (leftChainText k) (leftChain k) .digits := by
  have hone : ExprLayout ['1'] (.integer 1 default) .digits := .integer (by simp) (by simp)
  have hb : Blanks [] := by decide
  induction k with
  | zero => exact hone
  | succ k ih => exact .binary ih hb hb hone

/-- A chain is a sum, or a digit. -/
theorem leftChain_rank (k : Nat) : 5 ≤ (leftChain k).rank := by
  cases k with
  | zero => exact (by decide : 5 ≤ 8)
  | succ k => exact Nat.le_refl 5

theorem leftChain_wellFormed (k : Nat) : (leftChain k).WellFormed := by
  have hone : 1 < integerBound := by decide
  induction k with
  | zero => exact hone
  | succ k ih => exact ⟨⟨leftChain_rank k, ih⟩, by decide, hone⟩

/-- A chain needs no level but its own, -/
theorem leftChain_inside (k : Nat) : (leftChain k).inside = 0 := by
  induction k with
  | zero => rfl
  | succ k ih => simp only [leftChain, Expr.inside, ih, Nat.max_self]

/-- and each of its operators is a node above the one before. -/
theorem leftChain_heightBy (k : Nat) : k < (leftChain k).heightBy 1 := by
  induction k with
  | zero => exact Nat.one_pos
  | succ k ih =>
    simp only [leftChain, Expr.heightBy]
    omega

/-- A macro with a chain as its body. -/
def chainMacro (k : Nat) : Entry := .macroDef ⟨⟨"f", default⟩, [], leftChain k, none, default⟩

theorem chainMacro_layout (k : Nat) : ∃ text, EntryLayout text (chainMacro k) := by
  have hb : Blanks [] := by decide
  exact ⟨_, .macroDef (m := ⟨⟨"f", default⟩, [], leftChain k, none, default⟩) .bare hb .nil hb hb
    (leftChain_layout k) hb hb .bare⟩

theorem chainMacro_wellFormed (k : Nat) : (chainMacro k).WellFormed := by
  have hf : IsName "f".toList := by decide +kernel
  exact ⟨hf, by simp, leftChain_wellFormed k, by simp⟩

namespace Resource

/-- Under every limit but zero a tree can be as high as one likes. -/
theorem exists_height (n k : Nat) :
    ∃ source r, read (some (n + 1)) source = .ok r ∧ k < r.height := by
  obtain ⟨text, hentry⟩ := chainMacro_layout k
  have hb : Blanks [] := by decide
  have hlayout : BodyLayout (String.ofList ([] ++ text ++ [])).toList [chainMacro k] := by
    rw [String.toList_ofList]
    exact .entry hb hentry (.done hb)
  have hw : WellFormed ⟨[.entry (chainMacro k)], default⟩ := by
    intro e he
    obtain rfl := List.mem_singleton.mp he
    exact chainMacro_wellFormed k
  have hneed : need ⟨[.entry (chainMacro k)], default⟩ ≤ n + 1 := by
    show max (max (1 + (leftChain k).inside) 0) 0 ≤ n + 1
    rw [leftChain_inside]
    omega
  obtain ⟨r, hr, hbare⟩ := read_of_allows hw hlayout (Nesting.allows_outermost.mpr hneed)
  refine ⟨_, r, hr, ?_⟩
  have hheight : heightEntries 1 [chainMacro k] = 1 + (leftChain k).heightBy 1 := by
    simp [heightEntries, chainMacro, Entry.heightBy, Attributes.heightBy]
  have hchain := leftChain_heightBy k
  rw [height, heightEntries_congr 1 hbare]
  show k < 1 + heightEntries 1 [chainMacro k]
  omega

/-- Every entry holds a value or an expression, so that under the limit zero none is read. -/
theorem entries_of_read_zero {source : String} {r : Resource} (h : read (some 0) source = .ok r) :
    r.entries = [] := by
  have hneed : needEntries r.entries ≤ 0 := need_le_of_read h
  cases he : r.entries with
  | nil => rfl
  | cons e es =>
    have hpos := e.need_pos
    rw [he, needEntries] at hneed
    omega

/-- A limit bounds the height of what is read beside its chains of operators. Only the limit zero
bounds the height as a whole. -/
theorem height_of_read (n : Nat) :
    (∀ source r, read (some n) source = .ok r → r.heightBeside ≤ 9 * n + 2) ∧
      ((∃ bound, ∀ source r, read (some n) source = .ok r → r.height ≤ bound) ↔ n = 0) := by
  refine ⟨fun source r h => ?_, fun ⟨bound, hbound⟩ => ?_, ?_⟩
  · have hneed : needEntries r.entries ≤ n := need_le_of_read h
    have hheight := heightEntries_le (wellFormed_of_ofChars (read_eq_ok_iff_ofChars.mp h))
    rw [heightBeside]
    omega
  · cases n with
    | zero => rfl
    | succ n =>
      obtain ⟨source, r, hr, hheight⟩ := exists_height n bound
      exact absurd (hbound source r hr) (Nat.not_le.mpr hheight)
  · rintro rfl
    refine ⟨1, fun source r h => ?_⟩
    rw [height, entries_of_read_zero h]
    exact Nat.le_refl 1

/-- A limit that leaves room for a macro, and a chain in it. -/
theorem height_of_read_chain : ∃ r, read (some 1) "<f()\x7b1+1+1+1\x7d>" = .ok r ∧
    r.heightBeside ≤ 9 * 1 + 2 ∧
    ¬ ∃ bound, ∀ source r, read (some 1) source = .ok r → r.height ≤ bound := by
  obtain ⟨r, hr⟩ : ∃ r, read (some 1) "<f()\x7b1+1+1+1\x7d>" = .ok r :=
    exists_of_isOk (by decide +kernel)
  obtain ⟨hbeside, hwhole⟩ := height_of_read 1
  exact ⟨r, hr, hbeside _ r hr, fun hbound => absurd (hwhole.mp hbound) (by decide)⟩

/-- There is no bound on heights for every limit. -/
theorem height_unbounded :
    ¬ ∀ n, ∃ bound, ∀ source r, read (some n) source = .ok r → r.height ≤ bound := by
  intro hall
  obtain ⟨bound, hbound⟩ := hall 1
  obtain ⟨source, r, hr, hheight⟩ := exists_height 0 bound
  exact absurd (hbound source r hr) (Nat.not_le.mpr hheight)

end Resource

end LocaleText
