import LocaleText.Proofs.Awaiting.Basic
import LocaleText.Proofs.Reading.Fault
import LocaleText.Proofs.Unfinished.Expr

/-!
# Numbers with a fault within values and expressions

Where a text leads up to a number that has a fault, the readers of what the text begins raise that
fault: it is handed on through every composite, call, bracket, choice and operator that is open.

The readers of a production come in families, over the bounds on what they read, over what has been
read of a list before, and over the operators that stand to the left. A fault is raised by all of
them.

* `Reader.FaultyNumber` is a number from which no operand can be read
* `Reader.Raises` says what the readers of a production do: they raise a fault from an input,
  whatever they have read before and however much they are allowed to read
* `Reader.RaisesInOperation` is what that comes to for operations, where three readers share a text
* the lemmas of the section on parts hand the fault on from a part to the whole, one lemma for each
  place that a part can have
* `Unfinished.raises` puts them together, by induction on the unfinished text in front of the number
-/

namespace LocaleText

namespace Reader

/-- No operand is read from an input, since the number that begins there has a fault. -/
structure FaultyNumber (j : Input) (e : Fault) (l : Input) : Prop where
  digit : j.AtDigit
  error : ∀ inner bound n, primary inner bound n j = .error e l
  kind : e.kind ≠ .endOfInput

/-- The readers of operations of a rank raise a fault: those of choices and of signs, and those that read
the operands of a level, whatever has been joined before. -/
structure RaisesInOperation (e : Fault) (l : Input) (rank : Nat) (n : Nesting) (i : Input) : Prop where
  choice : rank = 0 → ∀ b, i.rest.length < b + 1 →
    conditional (expression b) (b + 1) n i = .error e l
  joined : ∀ b level tighter (f : Expr → Expr) rounds, Ranked rank (level :: tighter) → 1 ≤ rank →
    i.rest.length < b + 1 → i.rest.length < rounds →
    (operations (expression b) (b + 1) n tighter >>= fun first => repeatUpTo rounds (f first)
      (operationRound level (operations (expression b) (b + 1) n tighter))) i = .error e l
  signs : rank = 7 → ∀ b signs, i.rest.length < b + 1 → i.rest.length < signs →
    unary (expression b) (b + 1) signs n i = .error e l

/-- The readers of a production raise a fault from an input. -/
def Raises (e : Fault) (l : Input) (n : Nesting) (i : Input) : Production → Prop
  | .value => ∀ b bound, bound ≤ b → i.rest.length < bound + 1 →
    value (expression b) (bound + 1) n i = .error e l
  | .items => ∀ b composite opener items, composite.closer = ']' → i.rest.length < b →
    FaultsBehind (expressionRound (expression b) n composite opener) items i e l
  | .members marked => ∀ b opener read, read.2.isSome = marked → i.rest.length < b →
    FaultsBehind (memberRound (expression b) n opener) read i e l
  | .operand => ∀ b, i.rest.length < b + 1 → primary (expression b) (b + 1) n i = .error e l
  | .enclosed => ∀ b closer, i.rest.length < b → enclosed (expression b) n closer i = .error e l
  | .arguments => ∀ b args, i.rest.length < b →
    FaultsBehind (argumentRound (expression b) n) args i e l
  | .operation rank => RaisesInOperation e l rank n i
  | .expr => ∀ b, i.rest.length < b → expression b n i = .error e l

variable {e : Fault} {l i m : Input} {n : Nesting} {gap gap' item separator : List Char} {x : Expr}
  {ending : Ending}

/-! ### Parts of values -/

section Values

/-- Within an array, behind the opener. -/
theorem raises_value_of_items (hn : n.HasRoom) (ht : i.Takes (['['] ++ gap) m) (hg : Blanks gap)
    (hf : NextNot isBlank m.rest) (h : Raises e l n.deeper m .items) : Raises e l n i .value := by
  intro b bound hle hi
  have hexact : Exact bound (expression b) := (exact_expression b).mono hle
  have hlen := ht.length_lt (by simp)
  rw [value_of_bracket hn ht.head]
  exact bind_eq_error.mpr (.inl (expressions_eq_error hexact rfl hi ht hg hf
    (h b .array _ #[] rfl (by omega))))

/-- Within an object, behind the opener. -/
theorem raises_value_of_members (hn : n.HasRoom) (ht : i.Takes (['\x7b'] ++ gap) m) (hg : Blanks gap)
    (hf : NextNot isBlank m.rest) (h : Raises e l n.deeper m (.members false)) :
    Raises e l n i .value := by
  intro b bound hle hi
  have hexact : Exact bound (expression b) := (exact_expression b).mono hle
  have hlen := ht.length_lt (by simp)
  rw [value_of_brace hn ht.head]
  exact bind_eq_error.mpr (.inl (members_eq_error hexact hi ht hg hf (h b _ ([], none) rfl (by omega))))

/-- In the expression that comes next. -/
theorem raises_items_of_item (hk : e.kind ≠ .endOfInput) (hs : Starts i.rest)
    (h : Raises e l n i .expr) : Raises e l n i .items :=
  fun b _ _ _ hc hi => .now (expressionRound_eq_error hk hc hs (h b hi))

/-- Behind an expression that is complete. It is read in one more round. -/
theorem raises_items_of_more (hx : SpellsExpr n i.offset item x ending)
    (ht : i.Takes (item ++ gap ++ separator) m) (hg : Blanks gap) (hf : NextNot isBlank m.rest)
    (hp : Parted ending gap m.rest separator) (h : Raises e l n m .items) : Raises e l n i .items := by
  intro b composite opener items hc hi
  have hlen := ht.length
  exact .again ((expressionRound_iff (exact_expression b) hc hi).mpr (.inr ⟨x, item, gap, ending,
    separator, hx, ht, hg, hf, hp, rfl⟩)) (h b composite opener _ hc (by omega))

variable {marked : Bool} {member : Member} {key : List Char}

/-- In the value of the member that comes next. -/
theorem raises_members_of_member (hk : e.kind ≠ .endOfInput) (hkey : KeyText key member.key)
    (ht : i.Takes (member.mark ++ key) m) (hf : NextNot isBlank m.rest) (h : Raises e l n m .expr) :
    Raises e l n i (.members marked) := by
  intro b opener read _ hi
  have hlen := ht.length
  exact .now (memberRound_eq_error hk hkey ht hf (h b (by omega)))

/-- Behind a member that is complete, whose mark must be the first then. -/
theorem raises_members_of_more (hkey : KeyText key member.key)
    (hx : SpellsExpr n (i.offset + byteLength (member.mark ++ key)) item member.value ending)
    (ht : i.Takes (member.mark ++ key ++ item ++ gap ++ separator) m) (hg : Blanks gap)
    (hf : NextNot isBlank m.rest) (hp : Parted ending gap m.rest separator)
    (hmark : member.marked = true → marked = false)
    (h : Raises e l n m (.members (marked || member.marked))) : Raises e l n i (.members marked) := by
  intro b opener read hread hi
  have hlen := ht.length
  have hnone : member.marked = true → read.2 = none := fun hm =>
    Option.isNone_iff_eq_none.mp (Option.isSome_eq_false_iff.mp (hread.trans (hmark hm)))
  refine .again ((memberRound_iff (exact_expression b) hi).mpr (.inr ⟨member, key, item, gap, ending,
    separator, hkey, hx, ht, hg, hf, hp, hnone, rfl⟩)) (h b opener _ ?_ (by omega))
  rw [Members.next, isSome_nextDefault, hread]

end Values

/-! ### Parts of operands -/

section Operands

variable {name : List Char}

theorem raises_operand_of_value {c : Char} (hc : i.rest.head? = some c) (hv : c = '[' ∨ c = '\x7b')
    (h : Raises e l n i .value) : Raises e l n i .operand := by
  intro b hi
  rw [primary_of_valueStart hc (.inr hv)]
  exact bind_eq_error.mpr (.inl (h b b (Nat.le_refl b) hi))

theorem raises_operand_of_parenthesis (ht : i.Takes ['('] m) (h : Raises e l n m .enclosed) :
    Raises e l n i .operand := by
  intro b hi
  have hlen := ht.length_lt (by simp)
  rw [primary_of_round ht]
  exact bind_eq_error.mpr (.inl (h b ')' (by omega)))

/-- In the arguments of a call. -/
theorem raises_operand_of_call (hname : IsName name) (hnd : NextNot Char.isDigit name)
    (ht : i.Takes (name ++ ['('] ++ gap) m) (hg : Blanks gap) (hs : Starts m.rest)
    (h : Raises e l n m .arguments) : Raises e l n i .operand := by
  intro b hi
  rw [List.append_assoc] at ht
  obtain ⟨k, hk, hopen⟩ := Input.takes_append.mp ht
  have hklen := hk.length_lt hname.1
  have hlen := hopen.length
  rw [primary_of_name hname hnd hk.rest]
  exact named_eq_error_of_arguments hname hk hopen.head
    (arguments_eq_error (exact_expression b) (by omega) hopen hg hs (h b #[] (by omega)))

/-- In the key that a name selects by. -/
theorem raises_operand_of_key {selection : Selection} (hname : IsName name)
    (hnd : NextNot Char.isDigit name) (ht : i.Takes (name ++ selection.opener) m)
    (hdot : m.rest.head? ≠ some '.') (h : Raises e l n m .enclosed) : Raises e l n i .operand := by
  intro b hi
  have hlen := ht.length_lt (by simp [hname.1])
  rw [primary_of_name hname hnd (ht.rest.trans (List.append_assoc ..))]
  exact named_eq_error_of_key hname ht hdot (h b ']' (by omega))

theorem raises_enclosed_of_expr (ht : i.Takes gap m) (hg : Blanks gap) (hf : NextNot isBlank m.rest)
    (h : Raises e l n m .expr) : Raises e l n i .enclosed := by
  intro b closer hi
  have hlen := ht.length
  exact enclosed_eq_error ht hg hf (h b (by omega))

theorem raises_arguments_of_argument (h : Raises e l n i .expr) : Raises e l n i .arguments :=
  fun b _ hi => .now (bind_eq_error.mpr (.inl (h b hi)))

theorem raises_arguments_of_more (hx : SpellsExpr n i.offset item x ending)
    (ht : i.Takes (item ++ gap ++ [','] ++ gap') m) (hg : Blanks gap) (hg' : Blanks gap')
    (hf : NextNot isBlank m.rest) (h : Raises e l n m .arguments) : Raises e l n i .arguments := by
  intro b args hi
  have hlen := ht.length
  exact .again ((argumentRound_iff (exact_expression b) hi).mpr ⟨x, item, gap, ending, hx, hg,
    .inr ⟨gap', ht, hg', hf, rfl⟩⟩) (h b _ (by omega))

end Operands

/-! ### Parts of operations -/

section Operations

variable {rank : Nat} {text : List Char} {ending' : Ending} {t c : Expr}

/-- From signs on there are no levels left. -/
theorem not_ranked_cons_seven (level : List BinaryOp) (tighter : List (List BinaryOp)) :
    ¬ Ranked 7 (level :: tighter) := fun hr => by
  have := hr.2.2.le
  omega

theorem raises_signs (h : ∀ b signs, i.rest.length < b + 1 → i.rest.length < signs →
    unary (expression b) (b + 1) signs n i = .error e l) : Raises e l n i (.operation 7) :=
  ⟨fun h0 => absurd h0 (by decide), fun _ level tighter _ _ hr => absurd hr (not_ranked_cons_seven _ _),
    fun _ => h⟩

theorem raises_choice (h : ∀ b, i.rest.length < b + 1 →
    conditional (expression b) (b + 1) n i = .error e l) : Raises e l n i (.operation 0) :=
  ⟨fun _ => h, fun _ _ _ _ _ _ hpos => absurd hpos (by decide), fun h7 => absurd h7 (by decide)⟩

theorem raises_operation_of_operand (hc : i.rest.head?.bind UnaryOp.ofChar? = none)
    (h : Raises e l n i .operand) : Raises e l n i (.operation 7) := by
  refine raises_signs fun b signs hi hs => ?_
  obtain _ | signs := signs
  · omega
  · exact unary_eq_error_of_primary hc (h b hi)

/-- Behind a sign, one level further in. -/
theorem raises_operation_of_sign {op : UnaryOp} (hn : n.HasRoom) (ht : i.Takes ([op.token] ++ gap) m)
    (hg : Blanks gap) (hf : NextNot isBlank m.rest) (h : Raises e l n.deeper m (.operation 7)) :
    Raises e l n i (.operation 7) := by
  refine raises_signs fun b signs hi hs => ?_
  have hlen := ht.length_lt (by simp)
  obtain _ | signs := signs
  · omega
  · exact unary_eq_error_of_sign hn ht hg hf (h.signs rfl b signs (by omega) (by omega))

/-- What the readers of all levels from a rank on do. -/
theorem operations_eq_error_of_raises (h : Raises e l n i (.operation rank)) (hpos : 1 ≤ rank) {b : Nat}
    {levels : List (List BinaryOp)} (hr : Ranked rank levels) (hi : i.rest.length < b + 1) :
    operations (expression b) (b + 1) n levels i = .error e l := by
  cases levels with
  | nil => exact h.signs hr b (b + 1) hi hi
  | cons level tighter => exact h.joined b level tighter id (b + 1) hr hpos hi hi

/-- An operation of a rank begins with one of the next rank. -/
theorem raises_operation_of_tighter (hle : rank < 7) (h : Raises e l n i (.operation (rank + 1))) :
    Raises e l n i (.operation rank) := by
  have hpos : 1 ≤ rank + 1 := Nat.le_add_left 1 rank
  refine ⟨fun h0 b hi => ?_, fun b level tighter f rounds hr _ hi _ => ?_, fun h7 => absurd h7 (by omega)⟩
  · subst h0
    exact bind_eq_error.mpr (.inl (operations_eq_error_of_raises h hpos ranked_levels hi))
  · exact bind_eq_error.mpr (.inl (operations_eq_error_of_raises h hpos hr.2.2 hi))

/-- In the operand behind an operator. -/
theorem raises_operation_of_right {op : BinaryOp} (hop : op.rank = rank)
    (hx : SpellsOperation (rank + 1) n i.offset text x ending) (hg : Blanks gap) (hg' : Blanks gap')
    (ht : i.Takes (text ++ gap ++ op.token ++ gap') m) (hs : Starts m.rest)
    (h : Raises e l n m (.operation rank)) : Raises e l n i (.operation rank) := by
  have hpos := op.rank_pos
  have hle := op.rank_le
  refine ⟨fun h0 => absurd h0 (by omega), fun b level tighter f rounds hr _ hi hrounds => ?_,
    fun h7 => absurd h7 (by omega)⟩
  have hlen := ht.length_lt (by simp [hx.starts.ne_nil])
  obtain ⟨hlevels, hlevel, htighter⟩ := id hr
  have hexact := exactOperation_operations (n := n) (exact_expression b) htighter (by omega)
  obtain _ | rounds := rounds
  · omega
  · exact operationRounds_eq_error hexact hlevels ((hlevel op).mpr hop) (by omega) hx hg hg' ht hs hi
      (h.joined b level tighter (fun right => .join op (f x) right) rounds hr (by omega) (by omega)
        (by omega))

variable {test gap₁ gap₂ consequent gap₃ gap₄ : List Char}

theorem raises_choice_of_consequent (hx : SpellsOperation 1 n i.offset test t ending)
    (hg₁ : Blanks gap₁) (hg₂ : Blanks gap₂) (ht : i.Takes (test ++ gap₁ ++ ['?'] ++ gap₂) m)
    (hf : NextNot isBlank m.rest) (h : Raises e l n m .expr) : Raises e l n i (.operation 0) := by
  refine raises_choice fun b hi => ?_
  have hlen := ht.length_lt (by simp)
  exact conditional_eq_error_of_consequent (exact_expression b) hi hx hg₁ hg₂ ht hf (h b (by omega))

theorem raises_choice_of_alternate (hx : SpellsOperation 1 n i.offset test t ending)
    (hg₁ : Blanks gap₁) (hg₂ : Blanks gap₂)
    (hc : SpellsExpr n (i.offset + byteLength (test ++ gap₁ ++ ['?'] ++ gap₂)) consequent c ending')
    (hg₃ : Blanks gap₃) (hg₄ : Blanks gap₄)
    (ht : i.Takes (test ++ gap₁ ++ ['?'] ++ gap₂ ++ consequent ++ gap₃ ++ [':'] ++ gap₄) m)
    (hs : Starts m.rest) (h : Raises e l n m .expr) : Raises e l n i (.operation 0) := by
  refine raises_choice fun b hi => ?_
  have hlen := ht.length_lt (by simp)
  exact conditional_eq_error_of_alternate (exact_expression b) hi hx hg₁ hg₂ hc hg₃ hg₄ ht hs
    (h b (by omega))

theorem raises_expr_of_operation (hn : n.HasRoom) (h : Raises e l n.deeper i (.operation 0)) :
    Raises e l n i .expr := by
  intro b hi
  obtain _ | b := b
  · omega
  · exact expression_eq_error hn (h.choice rfl b hi)

end Operations

end Reader

/-! ### Unfinished texts in front of a number -/

section Unfinished

open Reader

variable {e : Fault} {l i j : Input} {n : Nesting} {o : Nat} {text : List Char}
  {openings : List Opening}

/-- Members in front of a digit begin with a mark or with a key. -/
theorem Input.LeadsTo.beginsMember {marked : Bool} (h : i.LeadsTo text j)
    (hu : Unfinished (.members marked) n o text openings) : BeginsMember i.rest := by
  have hends : Input.EndsIn ⟨o, text⟩ (.members marked) n openings.head? := ⟨openings, hu, rfl⟩
  rcases h.head? with ⟨-, rfl⟩ | hhead
  · exact absurd (hends.beginsMember '@' rfl) (by decide)
  · rw [BeginsMember, hhead]
    exact hends.beginsMember

/-- No sign comes next where an operand in front of a digit begins. -/
theorem Input.LeadsTo.ofChar?_eq_none (hj : j.AtDigit) (h : i.LeadsTo text j)
    (hu : Unfinished .operand n o text openings) : i.rest.head?.bind UnaryOp.ofChar? = none := by
  have hends : Input.EndsIn ⟨o, text⟩ .operand n openings.head? := ⟨openings, hu, rfl⟩
  rcases h.head? with ⟨rfl, -⟩ | hhead
  · obtain ⟨d, hd, hdigit⟩ := hj
    rw [hd]
    exact ofChar?_eq_none (.inl (isWordChar_of_isDigit hdigit))
  · rw [hhead]
    exact Option.bind_eq_none_iff.mpr hends.ofChar?_eq_none

/-- Neither does a dot where a key in front of a digit begins. -/
theorem Input.LeadsTo.head?_ne_dot (hj : j.AtDigit) (h : i.LeadsTo text j)
    (hu : Unfinished .enclosed n o text openings) : i.rest.head? ≠ some '.' := by
  have hends : Input.EndsIn ⟨o, text⟩ .enclosed n openings.head? := ⟨openings, hu, rfl⟩
  rcases h.head? with ⟨rfl, -⟩ | hhead
  · obtain ⟨d, hd, hdigit⟩ := hj
    rw [hd]
    exact fun hc => ne_of_class hdigit (by decide) (Option.some.inj hc)
  · rw [hhead]
    exact hends.head?_ne_of_enclosed (by decide) (by decide)

/-- A value in front of a digit begins with its opener. -/
theorem Input.LeadsTo.head_of_value (h : i.LeadsTo text j)
    (hu : Unfinished .value n o text openings) :
    i.rest.head? = text.head? ∧ ∃ c, i.rest.head? = some c ∧ (c = '[' ∨ c = '\x7b') := by
  have hends : Input.EndsIn ⟨o, text⟩ .value n openings.head? := ⟨openings, hu, rfl⟩
  have hne : text ≠ [] := fun hnil => h.not_uncut (hnil ▸ .nil)
  obtain ⟨c, hc, hv⟩ := hends.head_of_value hne
  rcases h.head? with ⟨-, rfl⟩ | hhead
  · obtain rfl := Option.some.inj hc
    exact absurd hv (by decide)
  · exact ⟨hhead, c, hhead.trans hc, hv⟩

/-- Where an unfinished text leads up to a number with a fault, the readers of what it begins raise that
fault. By induction on the relation: the part that the number is in raises it, and what is complete in
front of the part is read. -/
theorem Unfinished.raises {p : Production} (h : Unfinished p n o text openings)
    (hy : FaultyNumber j e l) (ho : i.offset = o) (hl : i.LeadsTo text j) : Raises e l n i p := by
  induction h generalizing i with
  | noValue | noItem | noMember | noOperand => exact absurd Uncut.nil hl.not_uncut
  | array hn hg hu ht ih =>
    subst ho ht
    obtain ⟨m, hm, hrest, hs⟩ :=
      hl.behind_starts hy.digit (.blanks (by decide) hg) (hu.mayStart (by simp) (by simp))
    exact raises_value_of_items hn hm hg hs.nextNot_isBlank (ih hm.offset hrest)
  | object hn hg hu ht ih =>
    subst ho ht
    obtain ⟨m, hm, hrest⟩ := hl.behind (.blanks (by decide) hg)
    exact raises_value_of_members hn hm hg (hrest.beginsMember hu).nextNot_isBlank
      (ih hm.offset hrest)
  | item _ hu ih =>
    exact raises_items_of_item hy.kind (hl.starts hy.digit (hu.mayStart (by simp) (by simp))) (ih ho hl)
  | moreItems hx hg hsep hu ht ih =>
    subst ho ht
    obtain ⟨m, hm, hrest, hs⟩ := hl.behind_starts hy.digit (hsep.uncut (hx.endsAs.uncut.blanks hg))
      (hu.mayStart (by simp) (by simp))
    exact raises_items_of_more hx hm hg hs.nextNot_isBlank
      (hl.parted hy.digit hx.endsAs hsep hrest hs.stops (hs.head?_ne (by decide))) (ih hm.offset hrest)
  | memberKey _ hkey ht =>
    rw [ht] at hl
    exact absurd ((uncut_markText _).append hkey.uncut) hl.not_uncut
  | @member _ mark _ _ key rest _ name _ hkey hu ht ih =>
    subst ho ht
    obtain ⟨m, hm, hrest, hs⟩ := hl.behind_starts hy.digit ((uncut_markText mark).append hkey.uncut)
      (hu.mayStart (by simp) (by simp))
    -- the value that the member gets is not read any more
    let item : Member := ⟨mark, name, .this i.here⟩
    have hitem : KeyText key item.key := hkey
    exact raises_members_of_member hy.kind hitem hm hs.nextNot_isBlank (ih hm.offset hrest)
  | @moreMembers _ _ _ member key item gap separator rest _ _ _ hkey hx hg hsep hmark hu ht ih =>
    subst ho ht
    obtain ⟨m, hm, hrest⟩ := hl.behind (hsep.uncut ((((uncut_markText _).append hkey.uncut).append
      hx.endsAs.uncut).blanks hg))
    have hbegins := hrest.beginsMember hu
    have hparted : Parted _ gap m.rest separator :=
      hl.parted hy.digit (hx.endsAs.append _) hsep hrest hbegins.stops hbegins.head?_ne_comma
    exact raises_members_of_more hkey hx hm hg hbegins.nextNot_isBlank hparted hmark
      (ih hm.offset hrest)
  | @reference _ _ scope id _ hname ht =>
    -- the sigil at the end is the one that the reference begins with
    cases hname with
    | nil =>
      obtain ⟨before, hbefore, -, htakes⟩ := hl
      obtain rfl : before = [] := by simpa using congrArg List.length (ht.symm.trans hbefore)
      obtain rfl := Input.takes_nil.mp htakes
      exact fun b _ => hy.error _ _ _
    | quote hq =>
      rw [ht] at hl
      exact absurd (Uncut.snoc _ (ne_of_class hq (by decide))) hl.not_uncut
  | ofValue _ hu ih =>
    obtain ⟨-, c, hc, hv⟩ := hl.head_of_value hu
    exact raises_operand_of_value hc hv (ih ho hl)
  | parenthesis _ ht ih =>
    subst ho ht
    obtain ⟨m, hm, hrest⟩ := hl.behind (by decide)
    exact raises_operand_of_parenthesis hm (ih hm.offset hrest)
  | call hname hnd hg hu ht ih =>
    subst ho ht
    obtain ⟨m, hm, hrest, hs⟩ := hl.behind_starts hy.digit (.blanks (.snoc _ (by decide)) hg)
      (hu.mayStart (by simp) (by simp))
    exact raises_operand_of_call hname hnd hm hg hs (ih hm.offset hrest)
  | @select _ _ selection _ _ _ _ hname hnd hu ht ih =>
    subst ho ht
    obtain ⟨m, hm, hrest⟩ := hl.behind (selection.uncut_opener _)
    exact raises_operand_of_key hname hnd hm (hrest.head?_ne_dot hy.digit hu) (ih hm.offset hrest)
  | enclosed hg hu ht ih =>
    subst ho ht
    obtain ⟨m, hm, hrest, hs⟩ :=
      hl.behind_starts hy.digit (.blanks .nil hg) (hu.mayStart (by simp) (by simp))
    exact raises_enclosed_of_expr hm hg hs.nextNot_isBlank (ih hm.offset hrest)
  | unclosed hg hx hg' ht =>
    rw [ht] at hl
    exact absurd (Uncut.blanks (hx.endsAs.append _).uncut hg') hl.not_uncut
  | argument _ ih => exact raises_arguments_of_argument (ih ho hl)
  | noArgumentEnd hx hg ht =>
    rw [ht] at hl
    exact absurd (hx.endsAs.uncut.blanks hg) hl.not_uncut
  | moreArguments hx hg hg' hu ht ih =>
    subst ho ht
    obtain ⟨m, hm, hrest, hs⟩ := hl.behind_starts hy.digit (.blanks (.snoc _ (by decide)) hg')
      (hu.mayStart (by simp) (by simp))
    exact raises_arguments_of_more hx hm hg hg' hs.nextNot_isBlank (ih hm.offset hrest)
  | ofOperand hu ih => exact raises_operation_of_operand (hl.ofChar?_eq_none hy.digit hu) (ih ho hl)
  | @unary _ _ op _ _ _ _ hn hg hu ht ih =>
    subst ho ht
    obtain ⟨m, hm, hrest, hs⟩ := hl.behind_starts hy.digit
      (.blanks (.of_ne (by cases op <;> decide)) hg) (hu.mayStart (by simp) (by simp))
    exact raises_operation_of_sign hn hm hg hs.nextNot_isBlank (ih hm.offset hrest)
  | looser hle _ ih => exact raises_operation_of_tighter hle (ih ho hl)
  | @binary _ _ _ op _ _ _ _ _ _ _ _ hop hx hg hg' hu ht ih =>
    subst ho ht
    obtain ⟨m, hm, hrest, hs⟩ := hl.behind_starts hy.digit
      (.blanks (.append (hx.endsAs.uncut.blanks hg) op.uncut_token) hg') (hu.mayStart (by simp) (by simp))
    exact raises_operation_of_right hop hx hg hg' hm hs (ih hm.offset hrest)
  | consequent hx hg₁ hg₂ hu ht ih =>
    subst ho ht
    obtain ⟨m, hm, hrest, hs⟩ := hl.behind_starts hy.digit (.blanks (.snoc _ (by decide)) hg₂)
      (hu.mayStart (by simp) (by simp))
    exact raises_choice_of_consequent hx hg₁ hg₂ hm hs.nextNot_isBlank (ih hm.offset hrest)
  | noAlternate _ _ _ hc hg₃ ht =>
    rw [ht] at hl
    exact absurd ((hc.endsAs.append _).uncut.blanks hg₃) hl.not_uncut
  | alternate hx hg₁ hg₂ hc hg₃ hg₄ hu ht ih =>
    subst ho ht
    obtain ⟨m, hm, hrest, hs⟩ := hl.behind_starts hy.digit (.blanks (.snoc _ (by decide)) hg₄)
      (hu.mayStart (by simp) (by simp))
    exact raises_choice_of_alternate hx hg₁ hg₂ hc hg₃ hg₄ hm hs (ih hm.offset hrest)
  | expr hn _ ih => exact raises_expr_of_operation hn (ih ho hl)

end Unfinished

end LocaleText
