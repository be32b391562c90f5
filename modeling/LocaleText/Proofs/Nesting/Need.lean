import LocaleText.Proofs.Layout.Basic

/-!
# The levels that a tree needs

How many levels of nesting a tree takes: values, expressions and signs count one each, operators and
siblings do not add up.

* `Expr.need` and `Value.need` are the levels that an expression and a value need, `Expr.inside` those
  below the level of the expression itself
* `Entry.need` and `Resource.need` are the largest needs of their parts
* `Nesting.Allows` says that so many levels are left, with small lemmas for the ways in which needs are
  put together
* needs do not depend on spans: `Entry.need_bare`
-/

namespace LocaleText

/-! ### Needs -/

mutual

def Value.need : Value → Nat
  | .string .. => 1
  | .array items _ => 1 + needItems items
  | .object members _ _ => 1 + needMembers members

/-- The levels that an expression needs below its own. -/
def Expr.inside : Expr → Nat
  | .integer .. => 0
  | .ident .. => 0
  | .reference .. => 0
  | .this .. => 0
  | .value v => v.need
  | .parenthesis inner _ => 1 + inner.inside
  | .call _ args _ => needItems args
  | .select _ _ key _ => 1 + key.inside
  | .unary _ arg _ => 1 + arg.inside
  | .binary _ left right _ => max left.inside right.inside
  | .conditional test consequent alternate _ =>
    max test.inside (max (1 + consequent.inside) (1 + alternate.inside))

def needItems : List Expr → Nat
  | [] => 0
  | item :: items => max (1 + item.inside) (needItems items)

def needMembers : List (String × Expr) → Nat
  | [] => 0
  | (_, item) :: members => max (1 + item.inside) (needMembers members)

end

/-- The levels that an expression needs. -/
def Expr.need (e : Expr) : Nat := 1 + e.inside

def Attributes.need : Attributes → Nat
  | [] => 0
  | (_, v) :: attributes => max v.need (Attributes.need attributes)

def Entity.need (e : Entity) : Nat :=
  max (needItems (e.index.getD [])) (max e.value.need (Attributes.need (e.attributes.getD [])))

def Macro.need (m : Macro) : Nat := max m.body.need (Attributes.need (m.attributes.getD []))

def Entry.need : Entry → Nat
  | .entity e => e.need
  | .macroDef m => m.need

def needEntries : List Entry → Nat
  | [] => 0
  | e :: es => max e.need (needEntries es)

def Resource.need (r : Resource) : Nat := needEntries r.entries

/-! ### Levels that are left -/

namespace Nesting

variable {n : Nesting} {k k' : Nat}

/-- So many levels are left within the limit. -/
def Allows (n : Nesting) (levels : Nat) : Prop :=
  ∀ limit, n.limit = some limit → n.depth + levels ≤ limit

theorem allows_of_none (h : n.limit = none) : n.Allows k := by
  intro limit hlimit
  rw [h] at hlimit
  cases hlimit

/-- At the outermost level the whole limit is left. -/
theorem allows_outermost {limit : Nat} : (outermost (some limit)).Allows k ↔ k ≤ limit := by
  constructor
  · intro h
    have hle : 0 + k ≤ limit := h limit rfl
    omega
  · intro h l hl
    cases hl
    show 0 + k ≤ limit
    omega

theorem hasRoom_iff : n.HasRoom ↔ n.Allows 1 := by
  obtain ⟨limit, depth⟩ := n
  cases limit with
  | none => exact iff_of_true rfl (allows_of_none rfl)
  | some limit =>
    simp only [HasRoom, exhausted?, Option.filter_eq_none_iff, Allows, Option.some.injEq,
      forall_eq', decide_eq_true_eq]
    omega

@[simp] theorem allows_deeper : n.deeper.Allows k ↔ n.Allows (1 + k) := by
  constructor
  · intro h limit hlimit
    have hle : n.depth + 1 + k ≤ limit := h limit hlimit
    omega
  · intro h limit hlimit
    have hle := h limit hlimit
    show n.depth + 1 + k ≤ limit
    omega

/-- Fewer levels are allowed as well. -/
theorem Allows.mono (h : n.Allows k) (hle : k' ≤ k) : n.Allows k' := by
  intro limit hlimit
  have := h limit hlimit
  omega

@[simp] theorem allows_max : n.Allows (max k k') ↔ n.Allows k ∧ n.Allows k' := by
  constructor
  · intro h
    exact ⟨h.mono (Nat.le_max_left ..), h.mono (Nat.le_max_right ..)⟩
  · intro ⟨h, h'⟩ limit hlimit
    have hk := h limit hlimit
    have hk' := h' limit hlimit
    omega

end Nesting

section Lists

variable {n : Nesting}

/-- Members are allowed what each of them is allowed. -/
theorem allows_needMembers {members : List (String × Expr)} (h : n.Allows 0)
    (hall : ∀ m ∈ members, n.Allows m.2.need) : n.Allows (needMembers members) := by
  induction members with
  | nil => exact h
  | cons m members ih =>
    obtain ⟨hm, hmembers⟩ := List.forall_mem_cons.mp hall
    exact Nesting.allows_max.mpr ⟨hm, ih hmembers⟩

theorem allows_needAttributes {attributes : Attributes} (h : n.Allows 0)
    (hall : ∀ a ∈ attributes, n.Allows a.2.need) : n.Allows attributes.need := by
  induction attributes with
  | nil => exact h
  | cons a attributes ih =>
    obtain ⟨ha, hattributes⟩ := List.forall_mem_cons.mp hall
    exact Nesting.allows_max.mpr ⟨ha, ih hattributes⟩

end Lists

/-! ### Needs without spans -/

mutual

theorem Value.need_bare : ∀ v : Value, v.bare.need = v.need
  | .string .. => rfl
  | .array items _ => by simp only [Value.bare, Value.need, needItems_bareItems items]
  | .object members _ _ => by simp only [Value.bare, Value.need, needMembers_bareMembers members]

theorem Expr.inside_bare : ∀ e : Expr, e.bare.inside = e.inside
  | .integer .. => rfl
  | .ident .. => rfl
  | .reference .. => rfl
  | .this .. => rfl
  | .value v => by simp only [Expr.bare, Expr.inside, v.need_bare]
  | .parenthesis inner _ => by simp only [Expr.bare, Expr.inside, inner.inside_bare]
  | .call _ args _ => by simp only [Expr.bare, Expr.inside, needItems_bareItems args]
  | .select _ _ key _ => by simp only [Expr.bare, Expr.inside, key.inside_bare]
  | .unary _ arg _ => by simp only [Expr.bare, Expr.inside, arg.inside_bare]
  | .binary _ left right _ => by
    simp only [Expr.bare, Expr.inside, left.inside_bare, right.inside_bare]
  | .conditional test consequent alternate _ => by
    simp only [Expr.bare, Expr.inside, test.inside_bare, consequent.inside_bare,
      alternate.inside_bare]

theorem needItems_bareItems : ∀ items : List Expr, needItems (bareItems items) = needItems items
  | [] => rfl
  | item :: items => by
    simp only [bareItems, needItems, item.inside_bare, needItems_bareItems items]

theorem needMembers_bareMembers : ∀ members : List (String × Expr),
    needMembers (bareMembers members) = needMembers members
  | [] => rfl
  | (_, item) :: members => by
    simp only [bareMembers, needMembers, item.inside_bare, needMembers_bareMembers members]

end

theorem Attributes.need_bare (attributes : Attributes) :
    attributes.bare.need = attributes.need := by
  induction attributes with
  | nil => rfl
  | cons a attributes ih =>
    show max a.2.bare.need (Attributes.need (Attributes.bare attributes)) = _
    rw [ih, a.2.need_bare]
    rfl

/-- Spans do not count. -/
theorem Entry.need_bare (e : Entry) : e.bare.need = e.need := by
  have hattributes : ∀ attributes : Option Attributes,
      Attributes.need ((attributes.map Attributes.bare).getD []) =
        Attributes.need (attributes.getD []) := by
    intro attributes
    cases attributes with
    | none => rfl
    | some attributes => exact attributes.need_bare
  cases e with
  | entity e =>
    have hindex : needItems ((e.index.map bareItems).getD []) = needItems (e.index.getD []) := by
      cases e.index with
      | none => rfl
      | some items => exact needItems_bareItems items
    simp only [Entry.bare, Entry.need, Entity.bare, Entity.need, hindex, hattributes,
      e.value.need_bare]
  | macroDef m =>
    simp only [Entry.bare, Entry.need, Macro.bare, Macro.need, Expr.need, hattributes,
      m.body.inside_bare]

/-- Entries that are the same up to spans and blanks have the same need. -/
theorem needEntries_congr {es es' : List Entry} (h : es.map Entry.bare = es'.map Entry.bare) :
    needEntries es = needEntries es' := by
  have hbare : ∀ es : List Entry, needEntries (es.map Entry.bare) = needEntries es := by
    intro es
    induction es with
    | nil => rfl
    | cons e es ih => rw [List.map_cons, needEntries, needEntries, ih, e.need_bare]
  rw [← hbare es, h, hbare es']

end LocaleText
