import LocaleText.Proofs.Members.Law

/-!
# Members and attributes as they are written

Lists of members and of attributes as texts, with the parts of a list separated by commas. Keys may
be repeated and any number of members may be marked, so that such a text need not be read.

* `ExprText` and `ValueText` are the texts that are an expression or a value wherever they stand
* `CommaEnded` and `CommaSeparated` are the lists, with or without a comma behind the last part
* `ObjectText` is an object, `SecondMark` the beginning of one with two marks;
  `ObjectText.exists_secondMark` finds such a beginning
* `ObjectText.spells` and `CommaSeparated.spells_attributes` lead to the grammar
* `MemberText.spells_cons` and `CommaEnded.spells_append` are the steps, one member and many
-/

namespace LocaleText

/-! ### Texts -/

/-- A text that is an expression, up to spans, wherever it stands without a limit. -/
def ExprText (text : List Char) (e : Expr) (ending : Ending) : Prop :=
  ∀ depth o, ∃ e', e'.bare = e.bare ∧ SpellsExpr ⟨none, depth⟩ o text e' ending

/-- A text that is a value, up to spans, wherever it stands without a limit. -/
def ValueText (text : List Char) (v : Value) : Prop :=
  ∀ depth o, ∃ v', v'.bare = v.bare ∧ SpellsValue ⟨none, depth⟩ o text v'

/-- A member with its mark, if it has one. -/
inductive MemberText : List Char → Member → Prop
  | mk {m : Member} {key item : List Char} {ending : Ending} :
      KeyText key m.key → ExprText item m.value ending → MemberText (m.mark ++ key ++ item) m

/-- An attribute. -/
inductive AttributeText : List Char → String × Value → Prop
  | mk {a : String × Value} {key value : List Char} :
      KeyText key a.1 → ValueText value a.2 → AttributeText (key ++ value) a

section Lists

variable {α : Type} (part : List Char → α → Prop)

/-- Parts of a list with a comma behind each of them. -/
inductive CommaEnded : List Char → List α → Prop
  | nil : CommaEnded [] []
  | cons {text gap gap' rest : List Char} {a : α} {as : List α} :
      part text a → Blanks gap → Blanks gap' → CommaEnded rest as →
      CommaEnded (text ++ gap ++ [','] ++ gap' ++ rest) (a :: as)

/-- One or more parts of a list with commas between them. -/
inductive CommaSeparated : List Char → List α → Prop
  | mk {init last gap : List Char} {a : α} {as : List α} :
      CommaEnded part init as → part last a → Blanks gap →
      CommaSeparated (init ++ last ++ gap) (as ++ [a])

/-- One more part in front. -/
theorem CommaSeparated.cons {part : List Char → α → Prop} {text gap gap' rest : List Char} {a : α}
    {as : List α} (ha : part text a) (hg : Blanks gap) (hg' : Blanks gap')
    (h : CommaSeparated part rest as) :
    CommaSeparated part (text ++ gap ++ [','] ++ gap' ++ rest) (a :: as) := by
  obtain ⟨hinit, hlast, hg''⟩ := h
  rw [← List.append_assoc, ← List.append_assoc, ← List.cons_append]
  exact .mk (.cons ha hg hg' hinit) hlast hg''

end Lists

/-- An object whose members are separated by commas. -/
inductive ObjectText : List Char → List Member → Prop
  | mk {gap members : List Char} {ms : List Member} :
      Blanks gap → CommaEnded MemberText members ms ∨ CommaSeparated MemberText members ms →
      ObjectText (['\x7b'] ++ gap ++ members ++ ['\x7d']) ms

/-- The beginning of an object, up to the comma or the brace behind its second marked member, with the
members up to that one and the bytes before each of the two marks. -/
inductive SecondMark : List Char → List Member → Nat → Nat → Prop
  | mk {gap before first second gap' : List Char} {c : Char} {ms ms' : List Member} {m m' : Member} :
      Blanks gap → CommaEnded MemberText before ms → (∀ m ∈ ms, m.marked = false) →
      CommaEnded MemberText first (m :: ms') → m.marked = true → (∀ m ∈ ms', m.marked = false) →
      MemberText second m' → m'.marked = true → Blanks gap' → c = ',' ∨ c = '\x7d' →
      SecondMark (['\x7b'] ++ gap ++ before ++ first ++ second ++ gap' ++ [c]) (ms ++ m :: ms' ++ [m'])
        (byteLength (['\x7b'] ++ gap ++ before)) (byteLength (['\x7b'] ++ gap ++ before ++ first))

/-! ### Layouts -/

/-- The layouts of a well-formed expression are texts of it, -/
theorem ExprLayout.exprText {text : List Char} {e : Expr} {ending : Ending}
    (h : ExprLayout text e ending) (hw : e.WellFormed) : ExprText text e ending := by
  intro depth o
  obtain ⟨e', hbare, hspells⟩ := h.spells (n := Nesting.deeper ⟨none, depth⟩) (o := o) hw
    (Nesting.allows_of_none rfl)
  exact ⟨e', hbare, .mk rfl (hspells.loosen (Nat.zero_le _))⟩

/-- and so are those of a well-formed value. -/
theorem ValueLayout.valueText {text : List Char} {v : Value} (h : ValueLayout text v)
    (hw : v.WellFormed) : ValueText text v :=
  fun _ _ => h.spells hw (Nesting.allows_of_none rfl)

theorem stringContent_of_isWordChar {quote : Char} (hq : isQuote quote = true) {content : List Char}
    (h : ∀ c ∈ content, isWordChar c = true) : StringContent quote 0 content := by
  induction content with
  | nil => exact stringContent_nil.mpr rfl
  | cons c content ih =>
    have hc := h c (List.mem_cons_self ..)
    have hquote : c ≠ quote := ne_of_class hc (isWordChar_of_isQuote hq)
    have hslash : c ≠ '\\' := ne_of_class hc (by decide)
    rw [stringContent_cons, backslashesBehind, if_neg hslash]
    exact ⟨fun he => absurd he hquote, ih fun c hc => h c (List.mem_cons_of_mem _ hc)⟩

theorem exprText_digit {digit : Char} (hd : digit.isDigit = true)
    (hw : decimalValue [digit] < integerBound) :
    ExprText [digit] (.integer (decimalValue [digit]) default) .digits := by
  have hitem : ExprLayout [digit] (.integer (decimalValue [digit]) default) .digits :=
    .integer (by simp) (by simpa using hd)
  exact hitem.exprText hw

/-- A member that is an integer of one digit. -/
theorem memberText_digit {key : String} (digit : Char) (marked : Bool) (hk : IsName key.toList)
    (hd : digit.isDigit = true) (hw : decimalValue [digit] < integerBound) :
    MemberText (Member.mark ⟨marked, key, .integer (decimalValue [digit]) default⟩ ++
        (key.toList ++ [] ++ [':'] ++ [' ']) ++ [digit])
      ⟨marked, key, .integer (decimalValue [digit]) default⟩ := by
  have hname : NameText key.toList key .word := by
    simpa using NameText.bare hk
  exact .mk (.mk hname (by decide) (by decide)) (exprText_digit hd hw)

/-! ### Members up to spans -/

namespace Member

def bare (m : Member) : Member := ⟨m.marked, m.key, m.value.bare⟩

variable {ms ms' : List Member} {m m' : Member}

theorem bareMembers_map_entry_congr (h : ms'.map bare = ms.map bare) :
    bareMembers (ms'.map entry) = bareMembers (ms.map entry) := by
  have hbare : ∀ ms : List Member, bareMembers (ms.map entry) = (ms.map bare).map entry := by
    intro ms
    rw [bareMembers_eq_map, List.map_map, List.map_map]
    rfl
  rw [hbare, hbare, h]

/-- No marks are counted where no member bears one. -/
theorem countP_marked_eq_zero_iff : ms.countP marked = 0 ↔ ∀ m ∈ ms, m.marked = false := by
  simp only [List.countP_eq_zero, Bool.not_eq_true]

theorem default?_eq_none_iff : default? ms = none ↔ ms.countP marked = 0 := by
  rw [default?, Option.map_eq_none_iff, List.find?_eq_none, List.countP_eq_zero]

theorem countP_marked_congr (h : ms'.map bare = ms.map bare) :
    ms'.countP marked = ms.countP marked := by
  have hbare : ∀ ms : List Member, ms.countP marked = (ms.map bare).countP marked := by
    intro ms
    rw [List.countP_map]
    rfl
  rw [hbare ms', h, ← hbare ms]

theorem default?_congr (h : ms'.map bare = ms.map bare) : default? ms' = default? ms := by
  have hbare : ∀ ms : List Member, default? ms = default? (ms.map bare) := by
    intro ms
    rw [default?, default?, List.find?_map, Option.map_map]
    rfl
  rw [hbare ms', h, ← hbare ms]

end Member

/-! ### How members begin -/

section Fronts

variable {text : List Char} {m : Member} {ms : List Member}

/-- A member begins with its mark or with its key. -/
theorem MemberText.exists_cons (h : MemberText text m) : ∃ c cs, text = c :: cs ∧
    (m.marked = true ∧ c = '*' ∨ m.marked = false ∧ (isWordChar c = true ∨ isQuote c = true)) := by
  obtain @⟨m, key, item, ending, hkey, _⟩ := h
  obtain ⟨c, cs, rfl, hc⟩ := hkey.exists_cons
  cases hmark : m.marked with
  | true => exact ⟨'*', _, by rw [Member.mark, hmark]; rfl, .inl ⟨rfl, rfl⟩⟩
  | false => exact ⟨c, _, by rw [Member.mark, hmark]; rfl, .inr ⟨rfl, hc⟩⟩

theorem MemberText.fresh (h : MemberText text m) (rest : List Char) :
    NextNot isBlank (text ++ rest) := by
  obtain ⟨c, cs, rfl, ⟨_, rfl⟩ | ⟨_, hc⟩⟩ := h.exists_cons
  · exact nextNot_cons.mpr (by decide)
  · exact nextNot_cons.mpr (key_head hc).1

theorem CommaEnded.fresh {rest : List Char} (h : CommaEnded MemberText text ms)
    (hrest : NextNot isBlank rest) : NextNot isBlank (text ++ rest) := by
  cases h with
  | nil => exact hrest
  | cons hm _ _ _ =>
    simp only [List.append_assoc]
    exact hm.fresh _

end Fronts

/-! ### The grammar of lists -/

section Spells

variable {α : Type} {part : List Char → α → Prop} {text gap separator rest : List Char}
  {depth o : Nat} {m : Member} {ms ms' : List Member}

/-- A member in front of others, whatever it ends with. -/
theorem MemberText.spells_cons (h : MemberText text m) (hg : Blanks gap)
    (hs : ∀ ending, Separator ending gap rest separator)
    (hrest : SpellsMembers ⟨none, depth⟩ (o + byteLength (text ++ gap ++ separator)) rest ms) :
    ∃ m', m'.bare = m.bare ∧
      SpellsMembers ⟨none, depth⟩ o (text ++ gap ++ separator ++ rest) (m' :: ms) := by
  obtain @⟨m, key, item, ending, hkey, hitem⟩ := h
  obtain ⟨e', hbare, hspells⟩ := hitem depth (o + byteLength (m.mark ++ key))
  refine ⟨⟨m.marked, m.key, e'⟩, ?_, .cons hkey hspells hg (hs ending) hrest rfl⟩
  simp only [Member.bare, hbare]

/-- By induction on the members in front. -/
theorem CommaEnded.spells_append (h : CommaEnded MemberText text ms)
    (hrest : SpellsMembers ⟨none, depth⟩ (o + byteLength text) rest ms') :
    ∃ ms₀, ms₀.map Member.bare = ms.map Member.bare ∧
      SpellsMembers ⟨none, depth⟩ o (text ++ rest) (ms₀ ++ ms') := by
  induction h generalizing o with
  | nil => exact ⟨[], rfl, hrest⟩
  | @cons text gap gap' later m ms hm hg hg' _ ih =>
    obtain ⟨ms₀, hbares, hspells⟩ :=
      ih (o := o + byteLength (text ++ gap ++ ([','] ++ gap'))) (by simpa [Nat.add_assoc] using hrest)
    obtain ⟨m₀, hbare, hcons⟩ := hm.spells_cons hg (fun _ => .comma hg') hspells
    refine ⟨m₀ :: ms₀, ?_, by simpa using hcons⟩
    rw [List.map_cons, List.map_cons, hbare, hbares]

theorem ObjectText.spells_members (h : CommaEnded MemberText text ms ∨ CommaSeparated MemberText text ms)
    (depth o : Nat) :
    ∃ ms', ms'.map Member.bare = ms.map Member.bare ∧ SpellsMembers ⟨none, depth⟩ o text ms' := by
  have hnil : ∀ o, SpellsMembers ⟨none, depth⟩ o [] [] := fun _ => .nil
  rcases h with h | @⟨init, last, gap, m, ms, hinit, hlast, hg⟩
  · obtain ⟨ms', hbares, hspells⟩ := h.spells_append (hnil (o + byteLength text))
    rw [List.append_nil, List.append_nil] at hspells
    exact ⟨ms', hbares, hspells⟩
  · have hend : ∀ ending : Ending, Separator ending gap [] [] :=
      fun _ => .omitted ⟨fun _ => nextNot_nil _, nextNot_nil _⟩
    obtain ⟨m', hbare, hcons⟩ := hlast.spells_cons (o := o + byteLength init) hg hend (hnil _)
    obtain ⟨ms', hbares, hspells⟩ := hinit.spells_append hcons
    refine ⟨ms' ++ [m'], ?_, by simpa using hspells⟩
    rw [List.map_append, List.map_append, hbares, List.map_singleton, List.map_singleton, hbare]

/-- An object with at most one mark is spelled wherever it stands. -/
theorem ObjectText.spells (h : ObjectText text ms) (hc : ms.countP Member.marked ≤ 1) (depth o : Nat) :
    ∃ ms', ms'.map Member.bare = ms.map Member.bare ∧ SpellsValue ⟨none, depth⟩ o text
      (.object (Member.entries ms') (Member.default? ms') (extent o text)) := by
  obtain @⟨gap, members, ms, hg, hms⟩ := h
  obtain ⟨ms', hbares, hspells⟩ :=
    spells_members hms (depth + 1) (o + byteLength (['\x7b'] ++ gap))
  rw [← Member.countP_marked_congr hbares] at hc
  exact ⟨ms', hbares, .object rfl hg hspells hc rfl⟩

/-- A key with its colon, and a value behind it. -/
theorem AttributeText.spells {a : String × Value} (h : AttributeText text a) (depth o : Nat) :
    ∃ key value v', text = key ++ value ∧ KeyText key a.1 ∧ v'.bare = a.2.bare ∧
      SpellsValue ⟨none, depth⟩ (o + byteLength key) value v' := by
  obtain ⟨hkey, hvalue⟩ := h
  obtain ⟨v', hbare, hspells⟩ := hvalue depth (o + byteLength _)
  exact ⟨_, _, v', rfl, hkey, hbare, hspells⟩

theorem CommaEnded.spells_attributes {written : Attributes} {last : List (String × Value)}
    (h : CommaEnded AttributeText text written)
    (hrest : SpellsAttributes ⟨none, depth⟩ (o + byteLength text) rest last) :
    ∃ written' : Attributes, written'.bare = written.bare ∧
      SpellsAttributes ⟨none, depth⟩ o (text ++ rest) (written' ++ last) := by
  induction h generalizing o with
  | nil => exact ⟨[], rfl, hrest⟩
  | @cons text gap gap' later a written ha hg hg' _ ih =>
    obtain ⟨key, value, v', rfl, hkey, hbare, hvalue⟩ := ha.spells depth o
    obtain ⟨written', hbares, hspells⟩ := ih (o := o + byteLength (key ++ value ++ gap ++ [','] ++ gap'))
      (by simpa [Nat.add_assoc] using hrest)
    refine ⟨(a.1, v') :: written', ?_, .cons hkey hvalue hg hg' hspells (by simp)⟩
    simp only [Attributes.bare] at hbares
    simp only [Attributes.bare, List.map_cons, hbare, hbares]

/-- All but the last attribute have a comma behind them. -/
theorem CommaSeparated.spells_attributes {written : Attributes}
    (h : CommaSeparated AttributeText text written) (depth o : Nat) :
    ∃ written' : Attributes, written'.bare = written.bare ∧
      SpellsAttributes ⟨none, depth⟩ o text written' := by
  obtain @⟨init, last, gap, a, written, hinit, hlast, hg⟩ := h
  obtain ⟨key, value, v', rfl, hkey, hbare, hvalue⟩ :=
    hlast.spells depth (o + byteLength init)
  obtain ⟨written', hbares, hspells⟩ :=
    hinit.spells_attributes (SpellsAttributes.last hkey hvalue hg rfl)
  refine ⟨written' ++ [(a.1, v')], ?_, by simpa using hspells⟩
  simp only [Attributes.bare] at hbares
  simp only [Attributes.bare, List.map_append, List.map_singleton, hbare, hbares]

end Spells

/-! ### Objects with two marks -/

section Marks

variable {text gap : List Char} {ms : List Member}

/-- A list with a mark is taken apart in front of the first one. -/
theorem CommaEnded.split_mark (h : CommaEnded MemberText text ms) (hc : 0 < ms.countP Member.marked) :
    ∃ before later ms₁ m ms₂, text = before ++ later ∧ ms = ms₁ ++ m :: ms₂ ∧
      CommaEnded MemberText before ms₁ ∧ (∀ m ∈ ms₁, m.marked = false) ∧
      CommaEnded MemberText later (m :: ms₂) ∧ m.marked = true := by
  induction h with
  | nil => exact absurd hc (Nat.lt_irrefl 0)
  | @cons text gap gap' rest m ms hm hg hg' hrest ih =>
    cases hmark : m.marked with
    | true =>
      exact ⟨[], _, [], m, ms, rfl, rfl, .nil, by simp, .cons hm hg hg' hrest, hmark⟩
    | false =>
      rw [List.countP_cons_of_neg (by simp [hmark])] at hc
      obtain ⟨before, later, ms₁, m', ms₂, rfl, rfl, hbefore, hnone, hlater, hmark'⟩ := ih hc
      refine ⟨_, later, m :: ms₁, m', ms₂, (List.append_assoc ..).symm, rfl,
        .cons hm hg hg' hbefore, ?_, hlater, hmark'⟩
      intro m₀ hm₀
      rcases List.mem_cons.mp hm₀ with rfl | hm₀
      · exact hmark
      · exact hnone m₀ hm₀

theorem countP_of_unmarked {ms₁ ms₂ : List Member} {m : Member} (hnone : ∀ m ∈ ms₁, m.marked = false)
    (hmark : m.marked = true) :
    (ms₁ ++ m :: ms₂).countP Member.marked = ms₂.countP Member.marked + 1 := by
  rw [List.countP_append, List.countP_cons_of_pos hmark, Member.countP_marked_eq_zero_iff.mpr hnone,
    Nat.zero_add]

/-- Two marks or more have a second one, and the text up to it is found. -/
theorem CommaEnded.exists_secondMark (h : CommaEnded MemberText text ms)
    (hc : 2 ≤ ms.countP Member.marked) (hg : Blanks gap) :
    ∃ front rest seen first second, ['\x7b'] ++ gap ++ text = front ++ rest ∧ seen <+: ms ∧
      SecondMark front seen first second := by
  obtain ⟨before, later, ms₁, m, ms₂, rfl, rfl, hbefore, hnone, hlater, hmark⟩ :=
    h.split_mark (by omega)
  rw [countP_of_unmarked hnone hmark] at hc
  obtain _ | @⟨member, gap₁, gap₂, rest, _, _, hm, hg₁, hg₂, hrest⟩ := hlater
  obtain ⟨between, later, ms₃, m', ms₄, rfl, rfl, hbetween, hnone', hlater, hmark'⟩ :=
    hrest.split_mark (by omega)
  obtain _ | @⟨second, gap₃, gap₄, rest, _, _, hsecond, hg₃, _, _⟩ := hlater
  exact ⟨_, gap₄ ++ rest, _, _, _, by simp, ⟨ms₄, by simp⟩, .mk hg hbefore hnone
    (.cons hm hg₁ hg₂ hbetween) hmark hnone' hsecond hmark' hg₃ (.inl rfl)⟩

/-- Every object with more than one mark begins up to its second one. -/
theorem ObjectText.exists_secondMark (h : ObjectText text ms) (hc : 2 ≤ ms.countP Member.marked) :
    ∃ front rest seen first second, text = front ++ rest ∧ seen <+: ms ∧
      SecondMark front seen first second := by
  obtain @⟨gap, members, ms, hg, hms | hms⟩ := h
  · obtain ⟨front, rest, seen, first, second, heq, hseen, hfront⟩ := hms.exists_secondMark hc hg
    exact ⟨front, rest ++ ['\x7d'], seen, first, second, by rw [heq, List.append_assoc], hseen, hfront⟩
  obtain @⟨init, last, gap', m, ms, hinit, hlast, hg'⟩ := hms
  by_cases hc' : 2 ≤ ms.countP Member.marked
  · obtain ⟨front, rest, seen, first, second, heq, hseen, hfront⟩ := hinit.exists_secondMark hc' hg
    refine ⟨front, rest ++ last ++ gap' ++ ['\x7d'], seen, first, second, ?_,
      hseen.trans (List.prefix_append ..), hfront⟩
    rw [List.append_assoc init, ← List.append_assoc _ init, heq]
    simp
  -- the second mark is that of the last member
  have hmark : m.marked = true := by
    cases hmark : m.marked with
    | true => rfl
    | false =>
      rw [List.countP_append, List.countP_singleton, if_neg (by simp [hmark])] at hc
      exact absurd hc hc'
  rw [List.countP_append, List.countP_singleton, if_pos hmark] at hc
  obtain ⟨before, later, ms₁, m₁, ms₂, rfl, rfl, hbefore, hnone, hlater, hmark₁⟩ :=
    hinit.split_mark (by omega)
  rw [countP_of_unmarked hnone hmark₁] at hc'
  have hnone₂ : ∀ m ∈ ms₂, m.marked = false := by
    have hzero : ms₂.countP Member.marked = 0 := by omega
    simpa using List.countP_eq_zero.mp hzero
  exact ⟨_, [], _, _, _, by simp, List.prefix_rfl,
    .mk hg hbefore hnone hlater hmark₁ hnone₂ hlast hmark hg' (.inr rfl)⟩

end Marks

end LocaleText
