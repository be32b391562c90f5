import Mathlib.Order.Filter.AtTopBot.Basic
import LocaleText.Proofs.Carry.Entry
import LocaleText.Proofs.Reading.Rounds

/-!
# Longer inputs

What a reader yields with something left behind it, it yields with more text behind that. The
readers of the longer inputs have larger bounds, so that families of them are considered, at all
bounds that are large enough.

* `Input.append` is an input with more text behind it
* `Keeps` says of a reader and a family that the family yields what the reader yields
* `Keeps.of_bound` and `Keeps.of_succ` come from readers that do elsewhere what they do here
* `KeepsInner` is the hypothesis about the readers of the expressions one level further in
* `Keeps.entryValue`, `Keeps.entry` and the lemmas between them are about the readers of entries
* `entry_shortens` says that an entry takes something

Only results are kept. A fault may be mended by the text behind it.
-/

namespace LocaleText

open Filter (atTop Tendsto)

/-- An input with more text behind it. -/
def Input.append (i : Input) (more : List Char) : Input := ⟨i.offset, i.rest ++ more⟩

/-- The next character is the same, unless there was none. -/
theorem Input.head?_append {i : Input} (hi : i.rest ≠ []) (more : List Char) :
    (i.append more).rest.head? = i.rest.head? := by
  obtain ⟨c, cs, hc⟩ := List.exists_cons_of_ne_nil hi
  rw [Input.append, hc]
  rfl

theorem Input.head?_append_of_head? {i : Input} {c : Char} (hc : i.rest.head? = some c)
    (more : List Char) : (i.append more).rest.head? = some c := by
  rw [Input.head?_append (fun hnil => by simp [hnil] at hc), hc]

theorem Input.Takes.append {i l : Input} {text : List Char} (h : i.Takes text l)
    (more : List Char) : (i.append more).Takes text (l.append more) := by
  refine ⟨?_, h.offset⟩
  rw [Input.append, Input.append, h.rest, List.append_assoc]

namespace Reader

variable {α β : Type} {i l : Input} {f : α → β} {x : Reader α} {y : Nat → Reader β}

/-- What a reader yields on an input, the readers of a family yield on longer ones. -/
def Keeps (f : α → β) (x : Reader α) (y : Nat → Reader β) (i : Input) : Prop :=
  ∀ bound, ∀ᶠ c in atTop, Carries bound 0 f x (y c) i

namespace Keeps

/-- A reader without a bound is its own family. -/
theorem const {y : Reader β} (h : ∀ bound, Carries bound 0 f x y i) : Keeps f x (fun _ => y) i :=
  fun bound => .of_forall fun _ => h bound

/-- Each reader of the family keeps what is read, at the bounds that it stays below. -/
theorem of_bound {r : Nat → Nat} (hr : Tendsto r atTop atTop)
    (h : ∀ c, Carries (r c) 0 f x (y c) i) : Keeps f x y i := by
  intro bound
  filter_upwards [hr.eventually_ge_atTop bound] with c hc
  exact (h c).mono hc

/-- The first bound does not matter. -/
theorem of_succ (h : ∀ c, Carries (c + 1) 0 f x (y c) i) : Keeps f x y i :=
  .of_bound (Filter.tendsto_add_atTop_nat 1) h

theorem within {composite : Composite} {opener : Span} (h : Keeps f x y i) :
    Keeps f (within composite opener x) (fun c => Reader.within composite opener (y c)) i := by
  intro bound
  filter_upwards [h bound] with c hc
  exact hc.within

theorem exists_takes {a : α} (h : Keeps f x y i) (hx : x i = .ok a l) :
    ∃ text, i.Takes text l := by
  obtain ⟨c, hc⟩ := (h 0).exists
  obtain ⟨text, ht, -⟩ := hc.ok hx
  exact ⟨text, ht⟩

/-- What is left has been left on the longer inputs as well, with the text behind it. -/
theorem length_le {a : α} (h : Keeps f x y i) (hx : x i = .ok a l) :
    l.rest.length ≤ i.rest.length := by
  obtain ⟨text, ht⟩ := h.exists_takes hx
  have hlen := ht.length
  omega

/-- What is left before a text that makes no difference there is left with it. -/
theorem append {a : α} (h : Keeps f x y i) (hx : x i = .ok a l) {more : List Char}
    (hmore : Alike l.rest (l.rest ++ more)) :
    ∀ᶠ c in atTop, y c (i.append more) = .ok (f a) (l.append more) := by
  filter_upwards [h ((i.rest ++ more).length + 1)] with c hc
  obtain ⟨text, ht, hsame⟩ := hc.ok hx
  have hi : i.rest ++ more = text ++ (l.rest ++ more) := by rw [ht.rest, List.append_assoc]
  have hrun := hsame _ hmore (by rw [← hi]; exact Nat.lt_succ_self _)
  rw [Input.append, hi]
  exact hrun

end Keeps

/-! ### Expressions -/

theorem keyed_shortens {value : Reader α} {member : Ident × α}
    (hvalue : ∀ (m : Input) a l, m.rest.length < i.rest.length → value m = .ok a l →
      l.rest.length ≤ m.rest.length) (h : keyed value i = .ok member l) :
    l.rest.length < i.rest.length := by
  obtain ⟨m₁, _, m₂, m₃, _, m₄, hident, hm₂, hm₃, hm₄, hv⟩ := keyed_eq_ok.mp h
  obtain ⟨_, _, ht, -⟩ := ident_eq_ok.mp hident
  have hlen₁ := ht.length
  have hlen₂ := hm₂.takes.length
  have hlen₃ := hm₃.length_lt (by simp)
  have hlen₄ := hm₄.takes.length
  have hlen := hvalue m₄ _ l (by omega) hv
  omega

/-- A reader of the expressions one level further in and a family of such readers: what the first
one reads the others read as well. -/
structure KeepsInner (b : Nat) (inner : Nesting → Reader Expr) (inner' : Nat → Nesting → Reader Expr) :
    Prop where
  exact : Exact b inner
  carries : ∀ c, CarriesInner b c 0 inner (inner' c)

namespace KeepsInner

variable {b : Nat} {n : Nesting} {inner : Nesting → Reader Expr}
  {inner' : Nat → Nesting → Reader Expr}

theorem expression (b : Nat) : KeepsInner b (expression b) fun c => Reader.expression c :=
  ⟨exact_expression b, fun _ => .expression⟩

/-- The readers inside a value may have the bound of the value. -/
theorem expression_succ (b : Nat) :
    KeepsInner b (Reader.expression b) fun c => Reader.expression (c + 1) :=
  ⟨exact_expression b, fun c n i hi => (Carries.expression n i hi).mono (Nat.le_succ c)⟩

/-- With less to read there is less to keep. -/
theorem mono {b' : Nat} (hle : b ≤ b') (h : KeepsInner b' inner inner') : KeepsInner b inner inner' :=
  ⟨h.exact.mono hle, fun c n i hi => h.carries c n i (by omega)⟩

theorem keeps (h : KeepsInner b inner inner') (hi : i.rest.length < b) :
    Keeps (Expr.shift 0) (inner n) (fun c => inner' c n) i :=
  .of_bound Filter.tendsto_id fun c => h.carries c n i hi

theorem shortens (h : KeepsInner b inner inner') (hi : i.rest.length < b) {e : Expr}
    (hrun : inner n i = .ok e l) : l.rest.length < i.rest.length := by
  obtain ⟨text, gap, ending, hspells, hleaves⟩ := (h.exact n i e l hi).mp hrun
  refine hleaves.takes.length_lt fun hnil => ?_
  exact hspells.starts.ne_nil (List.append_eq_nil_iff.mp hnil).1

theorem keyed (h : KeepsInner b inner inner') (hi : i.rest.length < b) :
    Keeps (Prod.map (Ident.shift 0) (Expr.shift 0)) (keyed (inner n))
      (fun c => Reader.keyed (inner' c n)) i :=
  .of_bound Filter.tendsto_id fun c => .keyed fun m hm => h.carries c n m (by omega)

theorem keyed_shortens (h : KeepsInner b inner inner') (hi : i.rest.length < b) {member : Ident × Expr}
    (hrun : Reader.keyed (inner n) i = .ok member l) : l.rest.length < i.rest.length :=
  Reader.keyed_shortens (fun _ _ _ hm hrun => Nat.le_of_lt (h.shortens (by omega) hrun)) hrun

theorem operations (h : KeepsInner b inner inner') {levels : List (List BinaryOp)} {rank : Nat}
    (hranked : Ranked rank levels) (hpos : 1 ≤ rank) (hi : i.rest.length < b + 1) :
    Keeps (Expr.shift 0) (operations inner (b + 1) n levels)
      (fun m => Reader.operations (inner' m) (m + 1) n levels) i :=
  .of_succ fun c => .operations h.exact (h.carries c) hranked hpos hi

end KeepsInner

/-! ### Entries -/

namespace Keeps

variable {b : Nat} {n : Nesting}

theorem entryValue (hi : i.rest.length < b + 1) : Keeps (Value.shift 0)
    (entryValue (b + 1) n) (fun c => Reader.entryValue (c + 1) n) i :=
  .of_succ fun _ => .entryValue hi

theorem keyed_entryValue (hi : i.rest.length < b + 1) : Keeps (Prod.map (Ident.shift 0) (Value.shift 0))
    (keyed (Reader.entryValue (b + 1) n)) (fun c => keyed (Reader.entryValue (c + 1) n)) i :=
  .of_succ fun _ => .keyed fun _ hm => .entryValue (by omega)

theorem attributes (hi : i.rest.length < b + 1) : Keeps (Option.map (Attributes.shift 0))
    (some <$> attributes (b + 1) n) (fun c => some <$> Reader.attributes (c + 1) n) i :=
  .of_succ fun _ => (Carries.attributes hi).map fun _ => rfl

theorem parameters (hi : i.rest.length < b + 1) (hc : i.rest.head? = some '(') :
    Keeps (List.map (Ident.shift 0)) (parameters (b + 1)) (fun c => Reader.parameters (c + 1)) i :=
  .of_succ fun _ => .parameters hi hc

theorem body (hi : i.rest.length < b + 1) : Keeps (Expr.shift 0)
    (enclosed (expression (b + 1)) n '\x7d') (fun c => enclosed (expression (c + 1)) n '\x7d') i :=
  .of_succ fun _ => .enclosed (b := b + 1) .expression hi

theorem index (hi : i.rest.length < b + 1) (hc : i.rest.head? = some '[') : Keeps (shiftItems 0)
    (expressions (expression (b + 1)) (b + 1) n .index)
    (fun c => expressions (expression (c + 1)) (c + 1) n .index) i := by
  have hinner : ∀ c, CarriesInner b c 0 (expression (b + 1)) (expression (c + 1)) :=
    ((KeepsInner.expression_succ (b + 1)).mono (Nat.le_succ b)).carries
  exact .of_succ fun c => .expressions (exact_inner b) (hinner c) rfl hi hc

theorem entry (hi : i.rest.length < b + 1) :
    Keeps (Entry.shift 0) (entry (b + 1) n) (fun c => Reader.entry (c + 1) n) i :=
  .of_succ fun _ => .entry hi

end Keeps

/-- An entry takes at least the character that it begins with. -/
theorem entry_shortens {b : Nat} {n : Nesting} {e : Entry} (hi : i.rest.length < b + 1)
    (hrun : entry (b + 1) n i = .ok e l) : l.rest.length < i.rest.length := by
  obtain ⟨text, ht, hspells⟩ := (entry_iff hi).mp hrun
  obtain ⟨cs, rfl⟩ := entry_front hspells
  exact ht.length_lt (by simp)

end Reader

end LocaleText
