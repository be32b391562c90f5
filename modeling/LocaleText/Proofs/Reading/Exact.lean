import LocaleText.Proofs.Grammar.Front
import LocaleText.Proofs.Reading.Expr

/-!
# Exact readers of values

The readers of composites read exactly what the grammar spells, given a reader that does so for the
expressions one level further in.

* `Input.Leaves` is a text at the front of an input that is told apart from what is left behind it
* `Exact bound` are the readers that read exactly the expressions on inputs shorter than a bound
* `Reader.expressions_iff`, `Reader.members_iff` and `Reader.arguments_iff` are the equivalences for
  lists; `items_of_rounds` and `rounds_of_items`, and the lemmas like them, are the two directions,
  by induction on the rounds and on the derivation
* `Reader.keyed_iff` is about a key with what it stands before
* `Reader.value_iff` is the equivalence for values
-/

namespace LocaleText

namespace Input

/-- A text with a gap behind it stands at the front of an input, and what is left then is neither a
blank nor read as part of an operation of a rank. -/
structure Leaves (i : Input) (text gap : List Char) (ending : Ending) (rank : Nat) (l : Input) :
    Prop where
  takes : i.Takes (text ++ gap) l
  blank : Blanks gap
  fresh : NextNot isBlank l.rest
  clear : ending.Clear gap l.rest
  stops : Stops rank l.rest

variable {i m l : Input} {text gap : List Char} {ending : Ending} {rank : Nat} {c : Char}

theorem Skips.refl (h : NextNot isBlank i.rest) : i.Skips [] i :=
  ⟨Takes.refl i, by simp [Blanks], h⟩

/-- Where no blank comes next, none is skipped. -/
theorem Skips.eq_of_fresh (h : i.Skips gap l) (hf : NextNot isBlank i.rest) : gap = [] ∧ l = i := by
  cases gap with
  | nil => exact ⟨rfl, takes_nil.mp h.takes⟩
  | cons b bs =>
    have hb := h.blank b (List.mem_cons_self ..)
    rw [hf b h.takes.head] at hb
    exact absurd hb (by decide)

theorem isBlank_of_mem_delimiters (h : c ∈ delimiters) : isBlank c = false := by
  have hall : ∀ d ∈ delimiters, isBlank d = false := forall_mem_of_all (by decide)
  exact hall c h

/-- A delimiter ends whatever stands before it, unless a question mark goes on with a choice. -/
theorem Leaves.of_delimiter (ht : i.Takes (text ++ gap) l) (hb : Blanks gap)
    (hc : l.rest.head? = some c) (hd : c ∈ delimiters) (hq : c = '?' → 0 < rank) :
    i.Leaves text gap ending rank l := by
  refine ⟨ht, hb, nextNot_of_head? hc (isBlank_of_mem_delimiters hd),
    fun _ => nextNot_of_head? hc (ending.continues_of_mem_delimiters hd), ?_⟩
  cases hr : l.rest with
  | nil => exact .nil rank
  | cons d ds =>
    rw [hr, List.head?_cons, Option.some.injEq] at hc
    rw [hc]
    by_cases hcq : c = '?'
    · rw [hcq]
      exact .of_question (hq hcq)
    · have hall : ∀ d ∈ delimiters, d ∉ BinaryOp.heads := forall_mem_of_all (by decide)
      exact .cons (hall c hd) hcq

/-- An infix operator ends the operations of tighter ranks before it. -/
theorem Leaves.of_operator {op : BinaryOp} (ht : i.Takes (text ++ gap) l) (hb : Blanks gap)
    (hop : l.Takes op.token m) (hr : op.rank < rank) : i.Leaves text gap ending rank l := by
  obtain ⟨c, cs, htoken, hc, _⟩ := op.token_head
  have hhead : l.rest.head? = some c := by
    rw [hop.rest, htoken]
    rfl
  have hblank : ∀ d ∈ BinaryOp.heads, isBlank d = false := forall_mem_of_all (by decide)
  refine ⟨ht, hb, nextNot_of_head? hhead (hblank c hc),
    fun _ => nextNot_of_head? hhead (ending.continues_of_mem_heads hc), .of_operator ?_ hr⟩
  rw [hop.rest]
  exact List.prefix_append ..

end Input

/-- What a reader of expressions is to read: a text that spells the expression, and the gap behind
it. -/
def ReadsExpr (n : Nesting) (i : Input) (e : Expr) (l : Input) : Prop :=
  ∃ text gap ending, SpellsExpr n i.offset text e ending ∧ i.Leaves text gap ending 0 l

/-- A reader that reads exactly the expressions, on inputs with fewer characters than a bound. -/
def Exact (bound : Nat) (inner : Nesting → Reader Expr) : Prop :=
  ∀ n i e l, i.rest.length < bound → (inner n i = .ok e l ↔ ReadsExpr n i e l)

/-- An expression begins with a character, and one of its own. -/
theorem ReadsExpr.head? {n : Nesting} {i l : Input} {e : Expr} (h : ReadsExpr n i e l) :
    ∃ c, i.rest.head? = some c ∧ isOperandStart c = true := by
  obtain ⟨text, gap, ending, he, hl⟩ := h
  rw [hl.takes.rest, List.append_assoc]
  exact (he.starts.append _).head?

namespace Reader

variable {inner : Nesting → Reader Expr} {bound : Nat} {n : Nesting} {i l : Input} {c : Char}

/-! ### Brackets and parentheses -/

/-- An expression in brackets or parentheses, behind the opener. -/
theorem enclosed_iff (h : Exact bound inner) (hi : i.rest.length < bound)
    (hc : c ∈ delimiters) (hq : c ≠ '?') {e : Expr} :
    enclosed inner n c i = .ok e l ↔ ∃ gap text gap' ending,
      i.Takes (gap ++ text ++ gap' ++ [c]) l ∧ Blanks gap ∧ Blanks gap' ∧
        SpellsExpr n (i.offset + byteLength gap) text e ending := by
  rw [enclosed_eq_ok]
  constructor
  · intro hr
    obtain ⟨gap, m, k, gap', k', hm, he, hk, hl⟩ := hr
    have hlen := hm.takes.length
    obtain ⟨text, gap₁, ending, hspells, hleaves⟩ := (h n m e k (by omega)).mp he
    obtain ⟨rfl, rfl⟩ := hk.eq_of_fresh hleaves.fresh
    refine ⟨gap, text, gap₁, ending, ?_, hm.blank, hleaves.blank, ?_⟩
    · simpa using hm.takes.trans (hleaves.takes.trans hl)
    · rw [← hm.takes.offset]
      exact hspells
  · intro hr
    obtain ⟨gap, text, gap', ending, ht, hg, hg', he⟩ := hr
    rw [List.append_assoc, List.append_assoc] at ht
    obtain ⟨m, hm, ht⟩ := Input.takes_append.mp ht
    rw [← List.append_assoc] at ht
    obtain ⟨k, hk, hl⟩ := Input.takes_append.mp ht
    have hleaves : m.Leaves text gap' ending 0 k := .of_delimiter hk hg' hl.head hc (absurd · hq)
    have hfresh : NextNot isBlank m.rest := by
      rw [hk.rest, List.append_assoc]
      exact (he.starts.append _).nextNot_isBlank
    have hlen := hm.length
    refine ⟨gap, m, k, [], k, ⟨hm, hg, hfresh⟩, ?_, .refl hleaves.fresh, hl⟩
    refine (h n m e k (by omega)).mpr ⟨text, gap', ending, ?_, hleaves⟩
    rw [hm.offset]
    exact he

/-! ### Separators -/

/-- A part of a list, the gap behind it, and a comma that may be left out. -/
theorem separated_iff (h : Exact bound inner) (hi : i.rest.length < bound) {e : Expr} :
    (∃ m gap m', inner n i = .ok e m ∧ m.Skips gap m' ∧ optionalComma m' = .ok () l) ↔
      ∃ text gap ending separator, SpellsExpr n i.offset text e ending ∧
        i.Takes (text ++ gap ++ separator) l ∧ Blanks gap ∧ NextNot isBlank l.rest ∧
        Parted ending gap l.rest separator := by
  simp only [optionalComma_eq_ok]
  constructor
  · intro hr
    obtain ⟨m, gap, m', he, hm', hcomma⟩ := hr
    obtain ⟨text, gap, ending, hspells, hleaves⟩ := (h n i e m hi).mp he
    obtain ⟨rfl, rfl⟩ := hm'.eq_of_fresh hleaves.fresh
    rcases hcomma with ⟨k, blanks, hk, hl⟩ | ⟨hne, rfl⟩
    · refine ⟨text, gap, ending, [','] ++ blanks, hspells, ?_, hleaves.blank, hl.stop,
        .comma hl.blank⟩
      exact hleaves.takes.trans (hk.trans hl.takes)
    · refine ⟨text, gap, ending, [], hspells, ?_, hleaves.blank, hleaves.fresh,
        .omitted hleaves.clear hleaves.stops hne⟩
      rw [List.append_nil]
      exact hleaves.takes
  · intro hr
    obtain ⟨text, gap, ending, separator, hspells, ht, hg, hfresh, hparted⟩ := hr
    cases hparted with
    | @comma blanks hb =>
      obtain ⟨m, hm, ht⟩ := Input.takes_append.mp ht
      obtain ⟨k, hk, ht⟩ := Input.takes_append.mp ht
      have hleaves : i.Leaves text gap ending 0 m :=
        .of_delimiter hm hg hk.head (by decide) (by decide)
      exact ⟨m, [], m, (h n i e m hi).mpr ⟨text, gap, ending, hspells, hleaves⟩,
        .refl hleaves.fresh, .inl ⟨k, blanks, hk, ht, hb, hfresh⟩⟩
    | omitted hclear hstops hne =>
      rw [List.append_nil] at ht
      exact ⟨l, [], l, (h n i e l hi).mpr ⟨text, gap, ending, hspells, ht, hg, hfresh, hclear,
        hstops⟩, .refl hfresh, .inr ⟨hne, rfl⟩⟩

/-! ### Arrays and indices -/

section Items

variable {composite : Composite} {opener : Span} {items : Array Expr} {es : List Expr}

/-- A round of an array or an index, by the text that it takes. -/
theorem expressionRound_iff (h : Exact bound inner) (hc : composite.closer = ']')
    (hi : i.rest.length < bound) {r : Round (Array Expr) (List Expr)} :
    expressionRound inner n composite opener items i = .ok r l ↔
      (i.Takes [']'] l ∧ r = .done items.toList) ∨
      (∃ e text gap ending separator, SpellsExpr n i.offset text e ending ∧
        i.Takes (text ++ gap ++ separator) l ∧ Blanks gap ∧ NextNot isBlank l.rest ∧
        Parted ending gap l.rest separator ∧ r = .again (items.push e)) := by
  rw [expressionRound_eq_ok, hc]
  apply or_congr_right
  constructor
  · intro hr
    obtain ⟨c, e, m, gap, m', _, he, hg, hcomma, rfl⟩ := hr
    obtain ⟨text, gap, ending, separator, hspells, ht, hb, hfresh, hparted⟩ :=
      (separated_iff h hi).mp ⟨m, gap, m', he, hg, hcomma⟩
    exact ⟨e, text, gap, ending, separator, hspells, ht, hb, hfresh, hparted, rfl⟩
  · intro hr
    obtain ⟨e, text, gap, ending, separator, hspells, ht, hb, hfresh, hparted, rfl⟩ := hr
    obtain ⟨m, gap, m', he, hg, hcomma⟩ := (separated_iff h hi).mpr
      ⟨text, gap, ending, separator, hspells, ht, hb, hfresh, hparted⟩
    obtain ⟨c, hci, hcs⟩ := ((h n i e m hi).mp he).head?
    have hcc : c ≠ ']' := ne_of_class hcs (by decide)
    exact ⟨c, e, m, gap, m', ⟨hci, hcc⟩, he, hg, hcomma, rfl⟩

/-- By induction on the rounds, the last of which takes the closer. -/
theorem items_of_rounds (h : Exact bound inner) (hc : composite.closer = ']')
    (hr : Rounds (expressionRound inner n composite opener) items i es l)
    (hi : i.rest.length < bound) :
    ∃ text list m, i.Takes text m ∧ m.Takes [']'] l ∧ SpellsItems n i.offset text list ∧
      es = items.toList ++ list := by
  induction hr with
  | done hr =>
    rcases (expressionRound_iff h hc hi).mp hr with ⟨hl, he⟩ | ⟨_, _, _, _, _, _, _, _, _, _, he⟩
    · cases he
      exact ⟨[], [], _, .refl _, hl, .nil, by simp⟩
    · cases he
  | again hr _ ih =>
    rcases (expressionRound_iff h hc hi).mp hr with ⟨_, he⟩ |
      ⟨e, text, gap, ending, separator, hspells, ht, hb, _, hparted, hs⟩
    · cases he
    · cases hs
      have hlen := ht.length
      obtain ⟨rest, list, k, hk, hl, hrest, rfl⟩ := ih (by omega)
      rw [ht.offset] at hrest
      rw [hk.rest, hl.rest] at hparted
      exact ⟨_, e :: list, k, ht.trans hk, hl,
        .cons hspells hb (hrest.parted_iff.mp hparted) hrest rfl, by simp⟩

/-- By induction on the derivation: each item is a round. -/
theorem rounds_of_items (h : Exact bound inner) (hc : composite.closer = ']') :
    ∀ {o text list}, SpellsItems n o text list → ∀ items {i m}, i.offset = o → i.Takes text m →
      m.Takes [']'] l → i.rest.length < bound →
      Rounds (expressionRound inner n composite opener) items i (items.toList ++ list) l
  | _, _, _, .nil, items, i, m, _, ht, hl, hi => by
    rw [Input.takes_nil] at ht
    rw [ht] at hl
    rw [List.append_nil]
    exact .done ((expressionRound_iff h hc hi).mpr (.inl ⟨hl, rfl⟩))
  | _, _, _, @SpellsItems.cons _ _ _ _ _ rest _ e _ _ hspells hb hsep hrest htext, items, i, m, ho,
      ht, hl, hi => by
    rw [htext] at ht
    rw [← ho] at hspells
    obtain ⟨k, hk, ht⟩ := Input.takes_append.mp ht
    have hkrest : k.rest = rest ++ ']' :: l.rest := by
      rw [ht.rest, hl.rest]
      rfl
    have hlen := hk.length
    have hrounds := rounds_of_items h hc hrest (items.push e) (by rw [hk.offset, ho]) ht hl
      (by omega)
    rw [Array.toList_push, List.append_assoc] at hrounds
    refine .again ((expressionRound_iff h hc hi).mpr (.inr ⟨e, _, _, _, _, hspells, hk, hb, ?_, ?_,
      rfl⟩)) hrounds
    · rw [hkrest]
      exact hrest.nextNot_isBlank
    · rw [hkrest]
      exact hrest.parted_iff.mpr hsep

/-- Every round but the last takes an expression. -/
theorem shortens_expressionRound (h : Exact bound inner) (hc : composite.closer = ']') :
    Shortens bound (expressionRound inner n composite opener) := by
  intro items i items' m hi hr
  rcases (expressionRound_iff h hc hi).mp hr with ⟨_, he⟩ | ⟨_, _, _, _, _, hspells, ht, _⟩
  · cases he
  · have hpos := List.length_pos_iff.mpr hspells.starts.ne_nil
    have hlen := ht.length
    simp only [List.length_append] at hlen
    omega

/-- The items between two brackets. -/
theorem expressions_iff (h : Exact bound inner) (hc : composite.closer = ']')
    (hi : i.rest.length < bound + 1) (hb : i.rest.head? = some '[') :
    expressions inner (bound + 1) n composite i = .ok es l ↔ ∃ gap text,
      i.Takes (['['] ++ gap ++ text ++ [']']) l ∧ Blanks gap ∧
        SpellsItems n (i.offset + byteLength (['['] ++ gap)) text es := by
  rw [expressions_eq_ok hb]
  constructor
  · intro hr
    obtain ⟨m, gap, m', hm, hg, hr⟩ := hr
    have ht := hm.trans hg.takes
    have hlen := ht.length_lt (by simp)
    obtain ⟨text, list, k, hk, hl, hitems, rfl⟩ :=
      items_of_rounds h hc (Rounds.of_repeatUpTo hr) (by omega)
    refine ⟨gap, text, (ht.trans hk).trans hl, hg.blank, ?_⟩
    rw [← ht.offset]
    exact hitems
  · intro hr
    obtain ⟨gap, text, ht, hg, hitems⟩ := hr
    obtain ⟨k, hk, hl⟩ := Input.takes_append.mp ht
    obtain ⟨m', hm', hk⟩ := Input.takes_append.mp hk
    obtain ⟨m, hm, hm'g⟩ := Input.takes_append.mp hm'
    have hlen := hm'.length_lt (by simp)
    have hfresh : NextNot isBlank m'.rest := by
      rw [hk.rest, hl.rest]
      exact hitems.nextNot_isBlank
    refine ⟨m, gap, m', hm, ⟨hm'g, hg, hfresh⟩, ?_⟩
    have hrounds : Rounds (expressionRound inner n composite i.here) #[] m' es l :=
      rounds_of_items h hc hitems #[] hm'.offset hk hl (by omega)
    exact hrounds.repeatUpTo (shortens_expressionRound h hc) (by omega) (by omega)

end Items

/-! ### Keys and members -/

/-- Behind a key with its colon, what is read is what comes next. -/
theorem keyed_of_key {α : Type} {key : List Char} {name : String} (value : Reader α)
    (hkey : KeyText key name) (ht : i.Takes key l) (hfresh : NextNot isBlank l.rest) :
    ∃ span, keyed value i = (value >>= fun a => pure (⟨name, span⟩, a)) l := by
  obtain @⟨id, gap, gap', name, ending, hname, hb, hb'⟩ := hkey
  obtain ⟨m₃, ht, hg'⟩ := Input.takes_append.mp ht
  obtain ⟨m₂, ht, hc⟩ := Input.takes_append.mp ht
  obtain ⟨m₁, ht, hg⟩ := Input.takes_append.mp ht
  have hcolon : NextNot isBlank m₂.rest := nextNot_of_head? hc.head (by decide)
  have hclear : NextNot ending.continues m₁.rest := by
    rw [hg.rest]
    exact Ending.Clear.nextNot hb fun _ => nextNot_of_head? hc.head
      (ending.continues_of_mem_delimiters (by decide))
  have hident : ident i = .ok ⟨name, extent i.offset id⟩ m₁ :=
    ident_eq_ok.mpr ⟨id, ending, ht, hname, rfl, hclear⟩
  refine ⟨extent i.offset id, ?_⟩
  rw [keyed, bind_of_eq_ok hident, bind_of_eq_ok (blanks_eq_ok.mpr ⟨_, hg, hb, hcolon⟩),
    bind_of_eq_ok (eat_eq_ok.mpr (.inl ⟨hc, rfl⟩))]
  exact bind_of_eq_ok (blanks_eq_ok.mpr ⟨_, hg', hb', hfresh⟩)

/-- A key with its colon, and what is read behind it. -/
theorem keyed_iff {α : Type} {value : Reader α} {name : String} {a : α} :
    (∃ span, keyed value i = .ok (⟨name, span⟩, a) l) ↔
      ∃ key m, KeyText key name ∧ i.Takes key m ∧ NextNot isBlank m.rest ∧ value m = .ok a l := by
  simp only [keyed_eq_ok]
  constructor
  · intro hr
    obtain ⟨span, m₁, gap, m₂, m₃, gap', m₄, hid, hg, hc, hg', hv⟩ := hr
    obtain ⟨text, ending, ht, hname, _, _⟩ := ident_eq_ok.mp hid
    exact ⟨_, m₄, .mk hname hg.blank hg'.blank,
      ((ht.trans hg.takes).trans hc).trans hg'.takes, hg'.stop, hv⟩
  · intro hr
    obtain ⟨_, m, hkey, ht, hfresh, hv⟩ := hr
    obtain ⟨span, hkeyed⟩ := keyed_of_key value hkey ht hfresh
    exact ⟨span, keyed_eq_ok.mp (hkeyed.trans (bind_eq_ok.mpr ⟨a, l, hv, rfl⟩))⟩

/-- The mark of a member, if it has one. -/
theorem eat_mark_iff {m : Member} : eat '*' i = .ok m.marked l ↔
    i.Takes m.mark l ∧ (m.marked = false → i.rest.head? ≠ some '*') := by
  rw [eat_eq_ok, Member.mark]
  cases m.marked with
  | true => simp
  | false =>
    simp only [and_false, and_true, false_or, Bool.false_eq_true, if_false,
      Input.takes_nil, forall_const]
    exact and_comm

/-- The first character of a member is neither the closer nor, without a mark, the mark. -/
theorem member_head {m : Member} {key rest : List Char} (hkey : KeyText key m.key)
    (hi : i.rest = m.mark ++ key ++ rest) :
    (∃ c, i.rest.head? = some c ∧ c ≠ '\x7d') ∧ (m.marked = false → i.rest.head? ≠ some '*') := by
  obtain ⟨c, cs, rfl, hc⟩ := hkey.exists_cons
  obtain ⟨_, _, _, _, hcloser, hstar⟩ := key_head hc
  rw [hi, Member.mark]
  cases m.marked with
  | true => exact ⟨⟨'*', rfl, by decide⟩, fun h => absurd h (by decide)⟩
  | false => exact ⟨⟨c, rfl, hcloser⟩, fun _ => by simpa using hstar⟩

/-- What more members make of those read so far. -/
def Members.add (read : Members) (ms : List Member) : Keyed Expr × Option String :=
  (ms.foldl (fun entries m => entries.insert m.key m.value) read.1,
    (read.2.map Prod.fst).or (Member.default? ms))

/-- At most one member is marked among those read so far and some more. -/
def Members.Admits (read : Members) (ms : List Member) : Prop :=
  ms.countP Member.marked + read.2.toList.length ≤ 1

def Members.next (read : Members) (m : Member) (marker : Span) : Members :=
  (read.1.insert m.key m.value, nextDefault m.marked m.key marker read.2)

section Members

variable {read : Members} {m : Member} {ms : List Member} {marker opener : Span}

/-- One more member, and its mark if it is the first. -/
theorem Members.admits_cons (marker : Span) : read.Admits (m :: ms) ↔
    (m.marked = true → read.2 = none) ∧ (read.next m marker).Admits ms := by
  obtain ⟨entries, default⟩ := read
  simp only [Members.Admits, Members.next, nextDefault, List.countP_cons]
  cases hm : m.marked with
  | false => simp
  | true =>
    cases default with
    | none => simp
    | some d => simp

theorem Members.add_cons (h : m.marked = true → read.2 = none) :
    read.add (m :: ms) = (read.next m marker).add ms := by
  obtain ⟨entries, default⟩ := read
  simp only [Members.add, Members.next, nextDefault, Member.default?, List.foldl_cons,
    List.find?_cons]
  cases hm : m.marked with
  | false => simp
  | true =>
    have hd : default = none := h hm
    simp [hd]

/-- A round of an object, by the text that it takes. -/
theorem memberRound_iff (h : Exact bound inner) (hi : i.rest.length < bound)
    {r : Round Members (Keyed Expr × Option String)} :
    memberRound inner n opener read i = .ok r l ↔
      (i.Takes ['\x7d'] l ∧ r = .done (read.add [])) ∨
      (∃ m key item gap ending separator, KeyText key m.key ∧
        SpellsExpr n (i.offset + byteLength (m.mark ++ key)) item m.value ending ∧
        i.Takes (m.mark ++ key ++ item ++ gap ++ separator) l ∧ Blanks gap ∧
        NextNot isBlank l.rest ∧ Parted ending gap l.rest separator ∧
        (m.marked = true → read.2 = none) ∧ r = .again (read.next m i.here)) := by
  have hnil : read.add [] = (read.1, read.2.map Prod.fst) := by simp [Members.add, Member.default?]
  rw [memberRound_eq_ok, hnil]
  apply or_congr_right
  constructor
  · intro hr
    obtain ⟨c, marked, k₀, p, k, gap, k', _, hmark, hp, hg, hcomma, hd, rfl⟩ := hr
    obtain ⟨⟨key, span⟩, e⟩ := p
    obtain ⟨hm, _⟩ := (eat_mark_iff (m := ⟨marked, key, e⟩)).mp hmark
    obtain ⟨text, k₁, hkey, hk₁, _, he⟩ := keyed_iff.mp ⟨span, hp⟩
    have ht := hm.trans hk₁
    have hlen := ht.length
    obtain ⟨item, gap, ending, separator, hspells, ht', hb, hfresh, hparted⟩ :=
      (separated_iff h (by omega)).mp ⟨k, gap, k', he, hg, hcomma⟩
    rw [ht.offset] at hspells
    refine ⟨⟨marked, key, e⟩, text, item, gap, ending, separator, hkey, hspells, ?_, hb, hfresh,
      hparted, hd, rfl⟩
    simpa using ht.trans ht'
  · intro hr
    obtain ⟨m, key, item, gap, ending, separator, hkey, hspells, ht, hb, hfresh, hparted, hd, rfl⟩ :=
      hr
    rw [List.append_assoc, List.append_assoc, ← List.append_assoc item] at ht
    obtain ⟨⟨c, hc, hcloser⟩, hstar⟩ := member_head hkey (by rw [ht.rest, List.append_assoc])
    obtain ⟨k₁, hk₁, ht'⟩ := Input.takes_append.mp ht
    obtain ⟨k₀, hm, hk⟩ := Input.takes_append.mp hk₁
    have hlen := hk₁.length
    rw [← hk₁.offset] at hspells
    obtain ⟨k, gap, k', he, hg, hcomma⟩ := (separated_iff h (by omega)).mpr
      ⟨item, gap, ending, separator, hspells, ht', hb, hfresh, hparted⟩
    have hfresh₁ : NextNot isBlank k₁.rest := by
      rw [ht'.rest, List.append_assoc, List.append_assoc]
      exact (hspells.starts.append _).nextNot_isBlank
    obtain ⟨span, hp⟩ := keyed_iff.mpr ⟨key, k₁, hkey, hk, hfresh₁, he⟩
    exact ⟨c, m.marked, k₀, (⟨m.key, span⟩, m.value), k, gap, k', ⟨hc, hcloser⟩,
      eat_mark_iff.mpr ⟨hm, hstar⟩, hp, hg, hcomma, hd, rfl⟩

/-- By induction on the rounds. A second mark would have stopped them. -/
theorem members_of_rounds (h : Exact bound inner) {r : Keyed Expr × Option String}
    (hr : Rounds (memberRound inner n opener) read i r l) (hi : i.rest.length < bound) :
    ∃ text ms m, i.Takes text m ∧ m.Takes ['\x7d'] l ∧ SpellsMembers n i.offset text ms ∧
      read.Admits ms ∧ r = read.add ms := by
  induction hr with
  | @done read i r l hr =>
    rcases (memberRound_iff h hi).mp hr with ⟨hl, he⟩ | ⟨_, _, _, _, _, _, _, _, _, _, _, _, _, he⟩
    · cases he
      refine ⟨[], [], _, .refl _, hl, .nil, ?_, rfl⟩
      cases hd : read.2 <;> simp [Members.Admits, hd]
    · cases he
  | @again read _ i k r l hr _ ih =>
    rcases (memberRound_iff h hi).mp hr with ⟨_, he⟩ |
      ⟨m, key, item, gap, ending, separator, hkey, hspells, ht, hb, _, hparted, hd, hs⟩
    · cases he
    · cases hs
      have hlen := ht.length
      obtain ⟨rest, ms, k', hk', hl, hrest, hadmits, rfl⟩ := ih (by
        have := List.length_pos_iff.mpr hspells.starts.ne_nil
        omega)
      rw [ht.offset] at hrest
      rw [hk'.rest, hl.rest] at hparted
      refine ⟨_, m :: ms, k', ht.trans hk', hl, ?_, (Members.admits_cons _).mpr ⟨hd, hadmits⟩,
        (Members.add_cons hd).symm⟩
      exact .cons hkey hspells hb (hrest.parted_iff.mp hparted) hrest rfl

/-- By induction on the derivation: each member is a round. -/
theorem rounds_of_members (h : Exact bound inner) :
    ∀ {o text ms}, SpellsMembers n o text ms → ∀ {read : Members} {i m}, i.offset = o →
      i.Takes text m → m.Takes ['\x7d'] l → i.rest.length < bound → read.Admits ms →
      Rounds (memberRound inner n opener) read i (read.add ms) l
  | _, _, _, .nil, read, i, m, _, ht, hl, hi, _ => by
    rw [Input.takes_nil] at ht
    rw [ht] at hl
    exact .done ((memberRound_iff h hi).mpr (.inl ⟨hl, rfl⟩))
  | _, _, _, @SpellsMembers.cons _ _ m _ _ _ _ rest _ _ _ hkey hspells hb hsep hrest htext, read, i,
      _, ho, ht, hl, hi, hadmits => by
    rw [htext] at ht
    rw [← ho] at hspells
    obtain ⟨hd, hadmits⟩ := (Members.admits_cons i.here).mp hadmits
    obtain ⟨k, hk, ht⟩ := Input.takes_append.mp ht
    have hkrest : k.rest = rest ++ '\x7d' :: l.rest := by
      rw [ht.rest, hl.rest]
      rfl
    have hlen := hk.length
    have hrounds := rounds_of_members h hrest (by rw [hk.offset, ho]) ht hl (by omega) hadmits
    rw [Members.add_cons hd]
    refine .again ((memberRound_iff h hi).mpr (.inr ⟨m, _, _, _, _, _, hkey, hspells, hk, hb, ?_, ?_,
      hd, rfl⟩)) hrounds
    · rw [hkrest]
      exact hrest.nextNot_isBlank
    · rw [hkrest]
      exact hrest.parted_iff.mpr hsep

theorem shortens_memberRound (h : Exact bound inner) :
    Shortens bound (memberRound inner n opener) := by
  intro read i read' m hi hr
  rcases (memberRound_iff h hi).mp hr with ⟨_, he⟩ | ⟨_, _, _, _, _, _, _, hspells, ht, _⟩
  · cases he
  · have hpos := List.length_pos_iff.mpr hspells.starts.ne_nil
    have hlen := ht.length
    simp only [List.length_append] at hlen
    omega

/-- The members between two braces. -/
theorem members_iff (h : Exact bound inner) (hi : i.rest.length < bound + 1)
    (hb : i.rest.head? = some '\x7b') {r : Keyed Expr × Option String} :
    members inner (bound + 1) n i = .ok r l ↔ ∃ gap text ms,
      i.Takes (['\x7b'] ++ gap ++ text ++ ['\x7d']) l ∧ Blanks gap ∧
        SpellsMembers n (i.offset + byteLength (['\x7b'] ++ gap)) text ms ∧
        ms.countP Member.marked ≤ 1 ∧ r = (Member.entries ms, Member.default? ms) := by
  rw [members_eq_ok hb]
  constructor
  · intro hr
    obtain ⟨m, gap, m', hm, hg, hr⟩ := hr
    have ht := hm.trans hg.takes
    have hlen := ht.length_lt (by simp)
    obtain ⟨text, ms, k, hk, hl, hms, hadmits, rfl⟩ :=
      members_of_rounds h (Rounds.of_repeatUpTo hr) (by omega)
    rw [ht.offset] at hms
    exact ⟨gap, text, ms, (ht.trans hk).trans hl, hg.blank, hms, hadmits, rfl⟩
  · intro hr
    obtain ⟨gap, text, ms, ht, hg, hms, hadmits, rfl⟩ := hr
    obtain ⟨k, hk, hl⟩ := Input.takes_append.mp ht
    obtain ⟨m', hm', hk⟩ := Input.takes_append.mp hk
    obtain ⟨m, hm, hm'g⟩ := Input.takes_append.mp hm'
    have hlen := hm'.length_lt (by simp)
    have hfresh : NextNot isBlank m'.rest := by
      rw [hk.rest, hl.rest]
      exact hms.nextNot_isBlank
    have hrounds : Rounds (memberRound inner n i.here) ([], none) m'
        (Members.add ([], none) ms) l :=
      rounds_of_members h hms hm'.offset hk hl (by omega) hadmits
    exact ⟨m, gap, m', hm, ⟨hm'g, hg, hfresh⟩,
      hrounds.repeatUpTo (shortens_memberRound h) (by omega) (by omega)⟩

end Members

/-! ### Arguments -/

section Arguments

variable {args : Array Expr} {es : List Expr}

/-- A round of arguments, by the text that it takes. -/
theorem argumentRound_iff (h : Exact bound inner) (hi : i.rest.length < bound)
    {r : Round (Array Expr) (List Expr)} :
    argumentRound inner n args i = .ok r l ↔
      ∃ e text gap ending, SpellsExpr n i.offset text e ending ∧ Blanks gap ∧
        ((i.Takes (text ++ gap ++ [')']) l ∧ r = .done (args.toList ++ [e])) ∨
          ∃ gap', i.Takes (text ++ gap ++ [','] ++ gap') l ∧ Blanks gap' ∧ NextNot isBlank l.rest ∧
            r = .again (args.push e)) := by
  rw [argumentRound_eq_ok]
  constructor
  · intro hr
    obtain ⟨e, m, gap, k, he, hk, hr⟩ := hr
    obtain ⟨text, gap, ending, hspells, hleaves⟩ := (h n i e m hi).mp he
    obtain ⟨rfl, rfl⟩ := hk.eq_of_fresh hleaves.fresh
    refine ⟨e, text, gap, ending, hspells, hleaves.blank, ?_⟩
    rcases hr with ⟨hl, rfl⟩ | ⟨k', gap', hk', hl, rfl⟩
    · exact .inl ⟨hleaves.takes.trans hl, by rw [Array.toList_push]⟩
    · exact .inr ⟨gap', (hleaves.takes.trans hk').trans hl.takes, hl.blank, hl.stop, rfl⟩
  · intro hr
    obtain ⟨e, text, gap, ending, hspells, hb, hr⟩ := hr
    rcases hr with ⟨ht, rfl⟩ | ⟨gap', ht, hb', hfresh, rfl⟩
    · obtain ⟨m, hm, hl⟩ := Input.takes_append.mp ht
      have hleaves : i.Leaves text gap ending 0 m :=
        .of_delimiter hm hb hl.head (by decide) (by decide)
      exact ⟨e, m, [], m, (h n i e m hi).mpr ⟨text, gap, ending, hspells, hleaves⟩,
        .refl hleaves.fresh, .inl ⟨hl, by rw [Array.toList_push]⟩⟩
    · obtain ⟨k, hk, hl⟩ := Input.takes_append.mp ht
      obtain ⟨m, hm, hc⟩ := Input.takes_append.mp hk
      have hleaves : i.Leaves text gap ending 0 m :=
        .of_delimiter hm hb hc.head (by decide) (by decide)
      exact ⟨e, m, [], m, (h n i e m hi).mpr ⟨text, gap, ending, hspells, hleaves⟩,
        .refl hleaves.fresh, .inr ⟨k, gap', hc, ⟨hl, hb', hfresh⟩, rfl⟩⟩

theorem shortens_argumentRound (h : Exact bound inner) :
    Shortens bound (argumentRound inner n) := by
  intro args i args' m hi hr
  obtain ⟨e, text, gap, ending, hspells, _, hr⟩ := (argumentRound_iff h hi).mp hr
  have hpos := List.length_pos_iff.mpr hspells.starts.ne_nil
  rcases hr with ⟨_, he⟩ | ⟨gap', ht, _⟩
  · cases he
  · have hlen := ht.length
    simp only [List.length_append] at hlen
    omega

theorem sequence_of_rounds (h : Exact bound inner) (hr : Rounds (argumentRound inner n) args i es l)
    (hi : i.rest.length < bound) :
    ∃ text list m, i.Takes text m ∧ m.Takes [')'] l ∧ SpellsSequence n i.offset text list ∧
      es = args.toList ++ list := by
  induction hr with
  | done hr =>
    obtain ⟨e, text, gap, ending, hspells, hb, hr⟩ := (argumentRound_iff h hi).mp hr
    rcases hr with ⟨ht, he⟩ | ⟨_, _, _, _, he⟩
    · cases he
      obtain ⟨m, hm, hl⟩ := Input.takes_append.mp ht
      exact ⟨_, [e], m, hm, hl, .last hspells hb rfl, rfl⟩
    · cases he
  | again hr _ ih =>
    obtain ⟨e, text, gap, ending, hspells, hb, hr⟩ := (argumentRound_iff h hi).mp hr
    rcases hr with ⟨_, he⟩ | ⟨gap', ht, hb', _, he⟩
    · cases he
    · cases he
      have hlen := ht.length
      obtain ⟨rest, list, k, hk, hl, hrest, rfl⟩ := ih (by omega)
      rw [ht.offset] at hrest
      exact ⟨_, e :: list, k, ht.trans hk, hl, .cons hspells hb hb' hrest rfl, by simp⟩

theorem rounds_of_sequence (h : Exact bound inner) :
    ∀ {o text list}, SpellsSequence n o text list → ∀ args {i m}, i.offset = o → i.Takes text m →
      m.Takes [')'] l → i.rest.length < bound →
      Rounds (argumentRound inner n) args i (args.toList ++ list) l
  | _, _, _, .last hspells hb htext, args, i, m, ho, ht, hl, hi => by
    rw [htext] at ht
    rw [← ho] at hspells
    exact .done ((argumentRound_iff h hi).mpr ⟨_, _, _, _, hspells, hb, .inl ⟨ht.trans hl, rfl⟩⟩)
  | _, _, _, @SpellsSequence.cons _ _ _ _ _ _ _ e _ _ hspells hb hb' hrest htext, args, i, m, ho, ht,
      hl, hi => by
    rw [htext] at ht
    rw [← ho] at hspells
    obtain ⟨k, hk, ht⟩ := Input.takes_append.mp ht
    have hlen := hk.length
    have hfresh : NextNot isBlank k.rest := by
      rw [ht.rest]
      exact (hrest.starts.append _).nextNot_isBlank
    have hrounds := rounds_of_sequence h hrest (args.push e) (by rw [hk.offset, ho]) ht hl
      (by omega)
    rw [Array.toList_push, List.append_assoc] at hrounds
    exact .again ((argumentRound_iff h hi).mpr ⟨e, _, _, _, hspells, hb, .inr ⟨_, hk, hb', hfresh,
      rfl⟩⟩) hrounds

/-- The arguments between two parentheses. -/
theorem arguments_iff (h : Exact bound inner) (hi : i.rest.length < bound + 1)
    (hb : i.rest.head? = some '(') :
    arguments inner (bound + 1) n i = .ok es l ↔ ∃ gap text,
      i.Takes (['('] ++ gap ++ text ++ [')']) l ∧ Blanks gap ∧
        SpellsArguments n (i.offset + byteLength (['('] ++ gap)) text es := by
  rw [arguments_eq_ok hb]
  constructor
  · intro hr
    obtain ⟨m, gap, k, hm, hg, hr⟩ := hr
    have ht := hm.trans hg.takes
    rcases hr with ⟨hl, rfl⟩ | ⟨_, hr⟩
    · exact ⟨gap, [], by simpa using ht.trans hl, hg.blank, .none⟩
    · have hlen := ht.length_lt (by simp)
      obtain ⟨text, list, k', hk', hl, hlist, rfl⟩ :=
        sequence_of_rounds h (Rounds.of_repeatUpTo hr) (by omega)
      rw [ht.offset] at hlist
      exact ⟨gap, text, (ht.trans hk').trans hl, hg.blank, .some hlist⟩
  · intro hr
    obtain ⟨gap, text, ht, hg, hargs⟩ := hr
    obtain ⟨k', hk', hl⟩ := Input.takes_append.mp ht
    obtain ⟨k, hk, hk'⟩ := Input.takes_append.mp hk'
    obtain ⟨m, hm, hmk⟩ := Input.takes_append.mp hk
    have hlen := hk.length_lt (by simp)
    cases hargs with
    | none =>
      rw [Input.takes_nil] at hk'
      rw [hk'] at hl
      have hfresh : NextNot isBlank k.rest := nextNot_of_head? hl.head (by decide)
      exact ⟨m, gap, k, hm, ⟨hmk, hg, hfresh⟩, .inl ⟨hl, rfl⟩⟩
    | some hseq =>
      have hstarts : Starts k.rest := by
        rw [hk'.rest]
        exact hseq.starts.append _
      have hrounds := rounds_of_sequence h hseq #[] hk.offset hk' hl (by omega)
      exact ⟨m, gap, k, hm, ⟨hmk, hg, hstarts.nextNot_isBlank⟩, .inr ⟨hstarts.head?_ne (by decide),
        hrounds.repeatUpTo (shortens_argumentRound h) (by omega) (by omega)⟩⟩

end Arguments

/-! ### Values -/

/-- A value is read exactly where it is spelled. -/
theorem value_iff (h : Exact bound inner) (hi : i.rest.length < bound + 1) {v : Value} :
    value inner (bound + 1) n i = .ok v l ↔ ∃ text, i.Takes text l ∧ SpellsValue n i.offset text v := by
  constructor
  · intro hr
    obtain ⟨hroom, c, hc, hq | rfl | rfl⟩ := valueStart_of_value hr
    · rw [value_of_isQuote hroom hc hq] at hr
      obtain ⟨content, ht, hcontent, rfl⟩ := (quoted_eq_ok hc).mp hr
      exact ⟨_, ht, .string hroom hq hcontent (by simp)⟩
    · rw [value_of_bracket hroom hc] at hr
      obtain ⟨es, hes, rfl⟩ := spanned_eq_ok.mp hr
      obtain ⟨gap, text, ht, hb, hitems⟩ := (expressions_iff h rfl hi hc).mp hes
      exact ⟨_, ht, by rw [ht.span]; exact .array hroom hb hitems rfl⟩
    · rw [value_of_brace hroom hc] at hr
      obtain ⟨r, hread, rfl⟩ := spanned_eq_ok.mp hr
      obtain ⟨gap, text, ms, ht, hb, hms, hcount, rfl⟩ := (members_iff h hi hc).mp hread
      exact ⟨_, ht, by rw [ht.span]; exact .object hroom hb hms hcount rfl⟩
  · intro hr
    obtain ⟨text, ht, hv⟩ := hr
    cases hv with
    | string hroom hq hcontent htext =>
      rw [htext, List.append_assoc] at ht ⊢
      rw [value_of_isQuote hroom ht.head hq]
      exact (quoted_eq_ok ht.head).mpr ⟨_, ht, hcontent, rfl⟩
    | array hroom hb hitems htext =>
      rw [htext] at ht ⊢
      have hc : i.rest.head? = some '[' := by rw [ht.rest]; rfl
      rw [value_of_bracket hroom hc]
      exact spanned_eq_ok.mpr ⟨_, (expressions_iff h rfl hi hc).mpr ⟨_, _, ht, hb, hitems⟩,
        by rw [ht.span]⟩
    | object hroom hb hms hcount htext =>
      rw [htext] at ht ⊢
      have hc : i.rest.head? = some '\x7b' := by rw [ht.rest]; rfl
      rw [value_of_brace hroom hc]
      exact spanned_eq_ok.mpr ⟨_, (members_iff h hi hc).mpr ⟨_, _, _, ht, hb, hms, hcount, rfl⟩,
        by rw [ht.span]⟩

end Reader

end LocaleText
