import LocaleText.Proofs.Reading.Rounds

/-!
# Faults behind complete parts

A fault of a part is the fault of the whole, once what comes before the part has been read. This
module says so for every production and for each of its parts that can have a fault, the end of the
source apart: inside of a composite that is the composite's own fault.

* `Reader.FaultsBehind` is a fault of a repetition behind rounds that go on, and
  `Reader.FaultsBehind.repeatUpTo` the fault of the repetition
* `Reader.expressions_eq_error` and `Reader.members_eq_error` are about the parts of a composite,
  `Reader.arguments_eq_error` about those of a call
* `Reader.named_eq_error_of_arguments` and `Reader.named_eq_error_of_key` are about what is attached
  to a name
* `Reader.operations_eq_error_of_right` is about the right operand of an operator, and
  `Reader.conditional_eq_error_of_consequent` and `Reader.conditional_eq_error_of_alternate` are
  about the branches of a choice
* `Reader.entryEnd_eq_error`, `Reader.entity_eq_error` and `Reader.entity_eq_error_of_end` are about
  the value and the attributes of an entity
* `Reader.macroDef_of_brace` and `Reader.behindBrace_eq_error_of_end` are about the body and the
  attributes of a macro
* `Reader.entry_of_name` leads to what is behind the name of an entry;
  `Reader.behindName_of_parenthesis`, `.behindName_of_bracket` and `.behindName_of_other` tell what
  that is, and `Reader.entry_eq_error_of_brace` and `.entry_eq_error_of_entity` put the parts
  together
-/

namespace LocaleText

namespace Reader

variable {α σ : Type} {i k l m : Input} {e : Fault}

/-! ### Repetitions -/

section Repetition

variable {round : σ → Reader (Round σ α)} {s s' : σ} {limit bound : Nat}

/-- A repetition comes to a fault behind rounds that go on. -/
def FaultsBehind (round : σ → Reader (Round σ α)) (s : σ) (i : Input) (e : Fault) (l : Input) : Prop :=
  ∃ s' m, Passes round s i s' m ∧ round s' m = .error e l

theorem FaultsBehind.now (h : round s i = .error e l) : FaultsBehind round s i e l :=
  ⟨s, i, .refl, h⟩

/-- Behind one more round. -/
theorem FaultsBehind.again (hr : round s i = .ok (.again s') m) (h : FaultsBehind round s' m e l) :
    FaultsBehind round s i e l := by
  obtain ⟨s'', m', hpasses, hfault⟩ := h
  exact ⟨s'', m', .again hr hpasses, hfault⟩

/-- By induction on the rounds before the fault. -/
theorem FaultsBehind.repeatUpTo (hround : Shortens limit round) (h : FaultsBehind round s i e l)
    (hl : i.rest.length < limit) (hb : i.rest.length < bound) :
    repeatUpTo bound s round i = .error e l := by
  obtain ⟨s', m, hpasses, he⟩ := h
  induction hpasses generalizing bound with
  | refl =>
    cases bound with
    | zero => omega
    | succ bound =>
      rw [Reader.repeatUpTo]
      exact bind_eq_error.mpr (.inl he)
  | again hr _ ih =>
    cases bound with
    | zero => omega
    | succ bound =>
      have hlt := hround _ _ _ _ hl hr
      rw [Reader.repeatUpTo]
      exact bind_eq_error.mpr (.inr ⟨_, _, hr, ih (by omega) (by omega) he⟩)

end Repetition

variable {inner : Nesting → Reader Expr} {bound : Nat} {n : Nesting} {gap gap' : List Char}

/-! ### Composites -/

section Composites

variable {composite : Composite} {opener : Span}

/-- A round that begins with an expression has the fault of the expression. -/
theorem expressionRound_eq_error {items : Array Expr} (hk : e.kind ≠ .endOfInput)
    (hc : composite.closer = ']') (hs : Starts i.rest) (h : inner n i = .error e l) :
    expressionRound inner n composite opener items i = .error e l := by
  obtain ⟨c, hhead, hstart⟩ := hs.head?
  have hne : c ≠ composite.closer := by
    rw [hc]
    exact ne_of_class hstart (by decide)
  rw [expressionRound, peek?_bind, hhead]
  refine (congrFun (if_neg hne) i).trans ?_
  exact bind_eq_error.mpr (.inl (within_eq_error h hk))

theorem expressions_eq_error (hx : Exact bound inner) (hc : composite.closer = ']')
    (hi : i.rest.length < bound + 1) (ht : i.Takes (['['] ++ gap) m) (hg : Blanks gap)
    (hf : NextNot isBlank m.rest)
    (h : FaultsBehind (expressionRound inner n composite i.here) #[] m e l) :
    expressions inner (bound + 1) n composite i = .error e l := by
  obtain ⟨k, hopen, hskip⟩ := Input.takes_append.mp ht
  have hlen := ht.length_lt (by simp)
  rw [expressions, here_bind, skip_bind hopen, bind_of_eq_ok (blanks_eq_ok.mpr ⟨gap, hskip, hg, hf⟩)]
  exact h.repeatUpTo (shortens_expressionRound hx hc) (by omega) (by omega)

/-- A fault behind the key of a member, whether it is marked or not. -/
theorem memberRound_eq_error {member : Member} {key : List Char} {read : Members}
    (hk : e.kind ≠ .endOfInput) (hkey : KeyText key member.key) (ht : i.Takes (member.mark ++ key) m)
    (hf : NextNot isBlank m.rest) (h : inner n m = .error e l) :
    memberRound inner n opener read i = .error e l := by
  obtain ⟨⟨c, hc, hcloser⟩, hstar⟩ := member_head hkey ht.rest
  obtain ⟨k, hmark, hkeyed⟩ := Input.takes_append.mp ht
  obtain ⟨span, hkeyed⟩ := keyed_of_key (inner n) hkey hkeyed hf
  have hwithin : within .object opener (keyed (inner n)) k = .error e l :=
    within_eq_error (hkeyed.trans (bind_eq_error.mpr (.inl h))) hk
  obtain ⟨entries, default⟩ := read
  rw [memberRound, peek?_bind, hc]
  refine (congrFun (if_neg hcloser) i).trans ?_
  rw [here_bind, bind_of_eq_ok (eat_mark_iff.mpr ⟨hmark, hstar⟩)]
  exact bind_eq_error.mpr (.inl hwithin)

theorem members_eq_error (hx : Exact bound inner) (hi : i.rest.length < bound + 1)
    (ht : i.Takes (['\x7b'] ++ gap) m) (hg : Blanks gap) (hf : NextNot isBlank m.rest)
    (h : FaultsBehind (memberRound inner n i.here) ([], none) m e l) :
    members inner (bound + 1) n i = .error e l := by
  obtain ⟨k, hopen, hskip⟩ := Input.takes_append.mp ht
  have hlen := ht.length_lt (by simp)
  rw [members, here_bind, skip_bind hopen, bind_of_eq_ok (blanks_eq_ok.mpr ⟨gap, hskip, hg, hf⟩)]
  exact h.repeatUpTo (shortens_memberRound hx) (by omega) (by omega)

end Composites

/-! ### Operands -/

/-- Behind the blanks that follow an opener. -/
theorem enclosed_eq_error {closer : Char} (ht : i.Takes gap m) (hg : Blanks gap)
    (hf : NextNot isBlank m.rest) (h : inner n m = .error e l) :
    enclosed inner n closer i = .error e l := by
  rw [enclosed, bind_of_eq_ok (blanks_eq_ok.mpr ⟨gap, ht, hg, hf⟩)]
  exact bind_eq_error.mpr (.inl h)

theorem arguments_eq_error (hx : Exact bound inner) (hi : i.rest.length < bound + 1)
    (ht : i.Takes (['('] ++ gap) m) (hg : Blanks gap) (hs : Starts m.rest)
    (h : FaultsBehind (argumentRound inner n) #[] m e l) :
    arguments inner (bound + 1) n i = .error e l := by
  obtain ⟨k, hopen, hskip⟩ := Input.takes_append.mp ht
  have hlen := ht.length_lt (by simp)
  have hclosed : eat ')' m = .ok false m := eat_eq_ok.mpr (.inr ⟨hs.head?_ne (by decide), rfl, rfl⟩)
  rw [arguments, skip_bind hopen,
    bind_of_eq_ok (blanks_eq_ok.mpr ⟨gap, hskip, hg, hs.nextNot_isBlank⟩), bind_of_eq_ok hclosed]
  exact h.repeatUpTo (shortens_argumentRound hx) (by omega) (by omega)

/-- A fault of the arguments behind a name. -/
theorem named_eq_error_of_arguments {name : List Char} (hname : IsName name) (ht : i.Takes name m)
    (hp : m.rest.head? = some '(') (h : arguments inner bound n m = .error e l) :
    named inner bound n i = .error e l := by
  rw [named_of_parenthesis (ident_of_name hname ht (nextNot_of_head? hp (by decide))) hp]
  exact bind_eq_error.mpr (.inl h)

/-- A fault of the key in brackets behind a name. -/
theorem named_eq_error_of_key {selection : Selection} {name : List Char} (hname : IsName name)
    (ht : i.Takes (name ++ selection.opener) m) (hdot : m.rest.head? ≠ some '.')
    (h : enclosed inner n ']' m = .error e l) : named inner bound n i = .error e l := by
  obtain ⟨k, hk, hopen⟩ := Input.takes_append.mp ht
  have hb : k.rest.head? = some '[' := by
    rw [hopen.rest]
    cases selection <;> rfl
  have hid := ident_of_name hname hk (nextNot_of_head? hb (by decide))
  rw [named_of_opener hid hopen fun _ => hdot]
  exact bind_eq_error.mpr (.inl h)

theorem unary_eq_error_of_primary {signs : Nat} (hc : i.rest.head?.bind UnaryOp.ofChar? = none)
    (h : primary inner bound n i = .error e l) : unary inner bound (signs + 1) n i = .error e l := by
  rw [unary, offset_bind, peek?_bind, hc]
  exact h

/-- A sign is one more level. -/
theorem unary_eq_error_of_sign {signs : Nat} {op : UnaryOp} (hn : n.HasRoom)
    (ht : i.Takes ([op.token] ++ gap) m) (hg : Blanks gap) (hf : NextNot isBlank m.rest)
    (h : unary inner bound signs n.deeper m = .error e l) :
    unary inner bound (signs + 1) n i = .error e l := by
  obtain ⟨k, hsign, hskip⟩ := Input.takes_append.mp ht
  have hnested : nested n (unary inner bound signs) m = .error e l := by
    rw [nested, hn]
    exact h
  rw [unary, offset_bind, peek?_bind, hsign.head, Option.bind_some, UnaryOp.ofChar?_token]
  show (skip >>= _) i = _
  rw [skip_bind hsign, bind_of_eq_ok (blanks_eq_ok.mpr ⟨gap, hskip, hg, hf⟩)]
  exact bind_eq_error.mpr (.inl hnested)

/-! ### Operations -/

section Operations

variable {rank : Nat} {left : Expr} {text : List Char} {ending : Ending} {op : BinaryOp}

/-- In the operand behind an operator and the blanks around it. -/
theorem operationRound_eq_error {level : List BinaryOp} {operand : Reader Expr} {m k' : Input}
    (hg : i.Skips gap m) (hfind : level.find? (fun o => o.token.isPrefixOf m.rest) = some op)
    (hop : m.Takes op.token k) (hg' : k.Skips gap' k') (h : operand k' = .error e l) :
    operationRound level operand left i = .error e l := by
  rw [operationRound, bind_of_eq_ok (blanks_eq_ok.mpr ⟨gap, hg⟩),
    bind_of_eq_ok (operator?_eq_ok.mpr ⟨hfind, rfl⟩)]
  show (take op.token.length >>= _) m = _
  rw [take_bind hop, bind_of_eq_ok (blanks_eq_ok.mpr ⟨gap', hg'⟩)]
  exact bind_eq_error.mpr (.inl h)

/-- A fault behind an operator of a level is a fault of the operations from that level on. -/
theorem operations_eq_error_of_right (h : Exact bound inner) {level : List BinaryOp}
    {tighter : List (List BinaryOp)} (hr : Ranked rank (level :: tighter)) (hpos : 1 ≤ rank)
    (hop : op.rank = rank) (hleft : SpellsOperation rank n i.offset text left ending) (hg : Blanks gap)
    (hg' : Blanks gap') (ht : i.Takes (text ++ gap ++ op.token ++ gap') k) (hs : Starts k.rest)
    (hi : i.rest.length < bound + 1) (he : operations inner (bound + 1) n tighter k = .error e l) :
    operations inner (bound + 1) n (level :: tighter) i = .error e l := by
  obtain ⟨hlevels, hlevel, htighter⟩ := hr
  have hle := htighter.le
  have hexact := exactOperation_operations (n := n) h htighter (by omega)
  obtain ⟨k₂, hk₂, hblanks⟩ := Input.takes_append.mp ht
  obtain ⟨k₁, hk₁, htoken⟩ := Input.takes_append.mp hk₂
  obtain ⟨first, m, m', gap₁, hm, hpasses, hm'⟩ := passes_of_operation hexact hlevels hlevel hpos
    (by omega) hleft rfl rfl rfl (.of_operator hk₁ hg htoken (by omega)) hi
  have hfind := find?_of_starts hlevels ((hlevel op).mpr hop) htoken hblanks hg' hs
  have hround : operationRound level (operations inner (bound + 1) n tighter) left m' = .error e l :=
    operationRound_eq_error hm' hfind htoken ⟨hblanks, hg', hs.nextNot_isBlank⟩ he
  have hfaults : FaultsBehind (operationRound level (operations inner (bound + 1) n tighter)) first m e
      l := ⟨_, _, hpasses, hround⟩
  have hlen := hexact.length_le i first m hi hm
  refine bind_eq_error.mpr (.inr ⟨first, m, hm, ?_⟩)
  exact hfaults.repeatUpTo (shortens_operationRound hexact) (by omega) (by omega)

/-- A fault behind an operand and an operator of a level, whatever has been joined before them. -/
theorem operationRounds_eq_error {operand : Reader Expr} (h : ExactOperation bound (rank + 1) n operand)
    {level : List BinaryOp} (hlevels : level ∈ BinaryOp.levels) (hlevel : op ∈ level)
    (hop : op.rank < rank + 1) (hleft : SpellsOperation (rank + 1) n i.offset text left ending)
    (hg : Blanks gap) (hg' : Blanks gap') (ht : i.Takes (text ++ gap ++ op.token ++ gap') k)
    (hs : Starts k.rest) (hi : i.rest.length < bound) {rounds : Nat} {f : Expr → Expr}
    (he : (operand >>= fun right => repeatUpTo rounds (.join op (f left) right)
      (operationRound level operand)) k = .error e l) :
    (operand >>= fun first => repeatUpTo (rounds + 1) (f first) (operationRound level operand)) i =
      .error e l := by
  obtain ⟨k₂, hk₂, hblanks⟩ := Input.takes_append.mp ht
  obtain ⟨k₁, hk₁, htoken⟩ := Input.takes_append.mp hk₂
  obtain ⟨m, gap₁, hread, hm⟩ := (h.iff i left k₁ hi).mpr
    ⟨text, gap, ending, hleft, .of_operator hk₁ hg htoken hop⟩
  have hfind := find?_of_starts hlevels hlevel htoken hblanks hg' hs
  refine bind_eq_error.mpr (.inr ⟨left, m, hread, ?_⟩)
  rw [repeatUpTo_operationRound, bind_of_eq_ok (blanks_eq_ok.mpr ⟨gap₁, hm⟩),
    bind_of_eq_ok (operator?_eq_ok.mpr ⟨hfind, rfl⟩)]
  show (take op.token.length >>= _) k₁ = _
  rw [take_bind htoken, bind_of_eq_ok (blanks_eq_ok.mpr ⟨gap', hblanks, hg', hs.nextNot_isBlank⟩)]
  exact he

variable {test gap₁ gap₂ consequent gap₃ gap₄ : List Char} {t c : Expr} {ending' : Ending}

/-- A test and a question mark lead to the branches. -/
theorem conditional_eq_error_of_consequent (h : Exact bound inner) (hi : i.rest.length < bound + 1)
    (htest : SpellsOperation 1 n i.offset test t ending) (hg₁ : Blanks gap₁) (hg₂ : Blanks gap₂)
    (ht : i.Takes (test ++ gap₁ ++ ['?'] ++ gap₂) m) (hf : NextNot isBlank m.rest)
    (he : inner n m = .error e l) : conditional inner (bound + 1) n i = .error e l := by
  rw [conditional_of_test h hi htest hg₁ hg₂ ht hf]
  exact bind_eq_error.mpr (.inl he)

/-- In the second branch, behind a test and a branch that are complete. -/
theorem conditional_eq_error_of_alternate (h : Exact bound inner) (hi : i.rest.length < bound + 1)
    (htest : SpellsOperation 1 n i.offset test t ending) (hg₁ : Blanks gap₁) (hg₂ : Blanks gap₂)
    (hc : SpellsExpr n (i.offset + byteLength (test ++ gap₁ ++ ['?'] ++ gap₂)) consequent c ending')
    (hg₃ : Blanks gap₃) (hg₄ : Blanks gap₄)
    (ht : i.Takes (test ++ gap₁ ++ ['?'] ++ gap₂ ++ consequent ++ gap₃ ++ [':'] ++ gap₄) m)
    (hs : Starts m.rest) (he : inner n m = .error e l) :
    conditional inner (bound + 1) n i = .error e l := by
  rw [conditional_of_branches h hi htest hg₁ hg₂ hc hg₃ hg₄ ht hs]
  exact bind_eq_error.mpr (.inl he)

theorem expression_eq_error (hn : n.HasRoom)
    (h : conditional (expression bound) (bound + 1) n.deeper i = .error e l) :
    expression (bound + 1) n i = .error e l := by
  rw [expression, nested, hn]
  exact h

end Operations

/-! ### Entries -/

section Entries

variable {start : Nat} {id : Ident} {index : Option (List Expr)}

theorem attributeRound_eq_error {entries : Attributes} {key : List Char} {name : String}
    (hkey : KeyText key name) (ht : i.Takes key m) (hf : NextNot isBlank m.rest)
    (h : entryValue bound n m = .error e l) : attributeRound bound n entries i = .error e l := by
  obtain ⟨span, hkeyed⟩ := keyed_of_key (entryValue bound n) hkey ht hf
  exact bind_eq_error.mpr (.inl (hkeyed.trans (bind_eq_error.mpr (.inl h))))

/-- In an attribute, behind the blanks before the first one and those that are complete. -/
theorem entryEnd_eq_error (hi : i.rest.length < bound + 1) (ht : i.Takes gap m) (hg : Blanks gap)
    (hf : NextNot isBlank m.rest) (hc : m.rest.head? ≠ some '>')
    (h : FaultsBehind (attributeRound (bound + 1) n) [] m e l) :
    entryEnd (bound + 1) n i = .error e l := by
  have hlen := ht.length
  have hattributes : attributes (bound + 1) n m = .error e l :=
    h.repeatUpTo shortens_attributeRound (by omega) (by omega)
  rw [entryEnd_eq, bind_of_eq_ok (blanks_eq_ok.mpr ⟨gap, ht, hg, hf⟩), peek?_bind, if_neg hc]
  exact bind_eq_error.mpr (.inl (map_eq_error hattributes))

/-- A fault of the value is a fault of the entity. -/
theorem entity_eq_error (hs : i.Skips gap m) (h : entryValue bound n m = .error e l) :
    entity bound n start id index i = .error e l := by
  rw [entity, bind_of_eq_ok (gap_eq_ok.mpr ⟨gap, hs, rfl⟩)]
  exact bind_eq_error.mpr (.inl h)

/-- So is a fault of what is behind the value. -/
theorem entity_eq_error_of_end {value : List Char} {v : Value} (hi : i.rest.length < bound + 1)
    (ht : i.Takes (gap ++ value ++ gap') m) (hg : Blanks gap) (hg' : Blanks gap')
    (hv : SpellsValue n (i.offset + byteLength gap) value v) (hf : NextNot isBlank m.rest)
    (h : entryEnd (bound + 1) n m = .error e l) :
    entity (bound + 1) n start id index i = .error e l := by
  obtain ⟨k, hk, hbehind⟩ := Input.takes_append.mp ht
  obtain ⟨j, hj, hvalue⟩ := Input.takes_append.mp hk
  have hlen := hj.length
  rw [← hj.offset] at hv
  have hfresh : NextNot isBlank j.rest := by
    rw [hvalue.rest]
    exact value_fresh hv
  have hread : entryValue (bound + 1) n j = .ok v k :=
    (entryValue_iff (by omega)).mpr ⟨value, hvalue, hv⟩
  rw [entity, bind_of_eq_ok (gap_eq_ok.mpr ⟨gap, ⟨hj, hg, hfresh⟩, rfl⟩), bind_of_eq_ok hread,
    bind_of_eq_ok (gap_eq_ok.mpr ⟨gap', ⟨hbehind, hg', hf⟩, rfl⟩)]
  exact bind_eq_error.mpr (.inl h)

section Macros

variable {gap₁ params gap₂ : List Char} {ids : List Ident}

/-- What is behind the opening brace of a macro: its body and its end. -/
def behindBrace (bound : Nat) (n : Nesting) (start : Nat) (id : Ident) (ids : List Ident) :
    Reader Macro := do
  let body ← enclosed (expression bound) n '\x7d'
  let attrs ← entryEnd bound n
  pure ⟨id, ids, body, attrs, ← spanFrom start⟩

theorem macroDef_of_brace (hi : i.rest.length < bound) (hg₁ : Blanks gap₁)
    (hparams : SpellsParameters (i.offset + byteLength (['('] ++ gap₁)) params ids) (hg₂ : Blanks gap₂)
    (ht : i.Takes (['('] ++ gap₁ ++ params ++ [')'] ++ gap₂ ++ ['\x7b']) m) :
    macroDef bound n start id i = behindBrace bound n start id ids m := by
  obtain ⟨k₂, hk₂, hbrace⟩ := Input.takes_append.mp ht
  obtain ⟨k₁, hk₁, hblanks⟩ := Input.takes_append.mp hk₂
  have hopen : i.rest.head? = some '(' := by
    rw [hk₁.rest]
    rfl
  have hread : parameters bound i = .ok ids k₁ :=
    (parameters_iff hi hopen).mpr ⟨gap₁, params, hk₁, hg₁, hparams⟩
  have hfresh : NextNot isBlank k₂.rest := nextNot_of_head? hbrace.head (by decide)
  rw [macroDef, bind_of_eq_ok hread, bind_of_eq_ok (blanks_eq_ok.mpr ⟨gap₂, hblanks, hg₂, hfresh⟩),
    bind_of_eq_ok (expect_eq_ok.mpr hbrace)]
  rfl

end Macros

/-- What an entry is, is decided behind its name. -/
theorem entry_of_name {text : List Char} {name : String} {ending : Ending}
    (hname : NameText text name ending) (ht : i.Takes (['<'] ++ text) k)
    (hn : NextNot ending.continues k.rest) : entry bound n i =
      behindName bound n i.offset ⟨name, extent (i.offset + byteLength ['<']) text⟩ k := by
  obtain ⟨m, hopen, htext⟩ := Input.takes_append.mp ht
  have hident : ident m = .ok ⟨name, extent (i.offset + byteLength ['<']) text⟩ k :=
    ident_eq_ok.mpr ⟨text, ending, htext, hname, by rw [hopen.offset], hn⟩
  have hcomment : ¬ List.isPrefixOf ['/', '*'] i.rest = true := by
    rw [hopen.rest]
    simp
  rw [entry, offset_bind, looksAt_bind, if_neg hcomment,
    bind_of_eq_ok (eat_eq_ok.mpr (.inl ⟨hopen, rfl⟩)), if_pos rfl, bind_of_eq_ok hident]
  rfl

theorem behindName_of_parenthesis (hc : i.rest.head? = some '(') :
    behindName bound n start id i = (Entry.macroDef <$> macroDef bound n start id) i := by
  rw [behindName, peek?_bind, hc]
  rfl

theorem behindName_of_bracket (hc : i.rest.head? = some '[') :
    behindName bound n start id i =
      (expressions (expression bound) bound n .index >>= fun index =>
        Entry.entity <$> entity bound n start id (some index)) i := by
  rw [behindName, peek?_bind, hc]
  rfl

theorem behindName_of_other (hp : i.rest.head? ≠ some '(') (hb : i.rest.head? ≠ some '[') :
    behindName bound n start id i = (Entry.entity <$> entity bound n start id none) i := by
  simp only [behindName, peek?_bind]

/-- A fault of what is behind the body of a macro. -/
theorem behindBrace_eq_error_of_end {body : List Char} {x : Expr} {ending : Ending} {ids : List Ident}
    (hi : i.rest.length < bound + 1) (ht : i.Takes (gap ++ body ++ gap' ++ ['\x7d']) m)
    (hg : Blanks gap) (hg' : Blanks gap') (hx : SpellsExpr n (i.offset + byteLength gap) body x ending)
    (h : entryEnd (bound + 1) n m = .error e l) :
    behindBrace (bound + 1) n start id ids i = .error e l := by
  have hbody : enclosed (expression (bound + 1)) n '\x7d' i = .ok x m :=
    (enclosed_iff (exact_expression (bound + 1)) hi (by decide) (by decide)).mpr
      ⟨gap, body, gap', ending, ht, hg, hg', hx⟩
  exact bind_eq_error.mpr (.inr ⟨x, m, hbody, bind_eq_error.mpr (.inl h)⟩)

/-- A fault of what is behind the opening brace of a macro. -/
theorem entry_eq_error_of_brace {id gap₁ params gap₂ : List Char} {name : String} {ending : Ending}
    {ids : List Ident} (hi : i.rest.length < bound) (hname : NameText id name ending)
    (hg₁ : Blanks gap₁)
    (hparams : SpellsParameters (i.offset + byteLength (['<'] ++ id ++ ['('] ++ gap₁)) params ids)
    (hg₂ : Blanks gap₂)
    (ht : i.Takes (['<'] ++ id ++ ['('] ++ gap₁ ++ params ++ [')'] ++ gap₂ ++ ['\x7b']) m)
    (h : ∀ id, behindBrace bound n i.offset id ids m = .error e l) : entry bound n i = .error e l := by
  have hassoc : ['<'] ++ id ++ ['('] ++ gap₁ ++ params ++ [')'] ++ gap₂ ++ ['\x7b'] =
      ['<'] ++ id ++ (['('] ++ gap₁ ++ params ++ [')'] ++ gap₂ ++ ['\x7b']) := by simp
  rw [hassoc] at ht
  obtain ⟨k, hk, hopen⟩ := Input.takes_append.mp ht
  have hhead : k.rest.head? = some '(' := by
    rw [hopen.rest]
    rfl
  have hlen := hk.length
  rw [List.append_assoc (['<'] ++ id), byteLength_append, ← Nat.add_assoc, ← hk.offset] at hparams
  rw [entry_of_name hname hk (nextNot_of_head? hhead (name_ending hname).1),
    behindName_of_parenthesis hhead]
  exact map_eq_error ((macroDef_of_brace (by omega) hg₁ hparams hg₂ hopen).trans (h _))

/-- A fault of what is behind the name of an entity and its index. -/
theorem entry_eq_error_of_entity {id index : List Char} {name : String} {ending : Ending}
    {es : Option (List Expr)} (hi : i.rest.length < bound + 1) (hname : NameText id name ending)
    (hindex : SpellsIndex n (i.offset + byteLength (['<'] ++ id)) index es)
    (ht : i.Takes (['<'] ++ id ++ index) m) (hnext : es = none → NextNot ending.continues m.rest ∧
      m.rest.head? ≠ some '(' ∧ m.rest.head? ≠ some '[')
    (h : ∀ id, entity (bound + 1) n i.offset id es m = .error e l) :
    entry (bound + 1) n i = .error e l := by
  obtain ⟨k, hk, hindex'⟩ := Input.takes_append.mp ht
  have hlen := hk.length
  rw [← hk.offset] at hindex
  cases hindex with
  | none =>
    obtain rfl := Input.takes_nil.mp hindex'
    obtain ⟨hn, hp, hb⟩ := hnext rfl
    rw [entry_of_name hname hk hn, behindName_of_other hp hb]
    exact map_eq_error (h _)
  | @some gap items _ es hgap hitems htext =>
    rw [htext] at hindex'
    have hhead : k.rest.head? = some '[' := by
      rw [hindex'.rest]
      rfl
    have hexpressions : expressions (expression (bound + 1)) (bound + 1) n .index k = .ok es m :=
      (expressions_iff (exact_inner bound) rfl (by omega) hhead).mpr ⟨gap, items, hindex', hgap, hitems⟩
    rw [entry_of_name hname hk (nextNot_of_head? hhead (name_ending hname).2),
      behindName_of_bracket hhead]
    exact bind_eq_error.mpr (.inr ⟨es, m, hexpressions, map_eq_error (h _)⟩)

end Entries

end Reader

end LocaleText
