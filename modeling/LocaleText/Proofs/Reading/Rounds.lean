import LocaleText.Proofs.Reading.Entry

/-!
# Readers in their parts

What a repetition does is its first round and what comes behind that. Each equation of this module
takes a reader apart into the readers that it runs one after another.

* `repeatUpTo_expressionRound`, `repeatUpTo_memberRound` and `repeatUpTo_argumentRound` are about
  composites and calls
* `repeatUpTo_operationRound` is about operands
* `repeatUpTo_attributeRound`, `repeatUpTo_parameterRound` and `repeatUpTo_itemRound` are about
  entries
-/

namespace LocaleText

namespace Reader

variable {inner : Nesting → Reader Expr} {bound rounds : Nat} {n : Nesting}

/-! ### Composites and arguments -/

section Composites

variable {composite : Composite} {opener : Span}

/-- The closer, or an expression and what is behind it. -/
theorem repeatUpTo_expressionRound {items : Array Expr} :
    repeatUpTo (rounds + 1) items (expressionRound inner n composite opener) =
      peek? >>= fun c? => match c? with
      | none => unterminated composite opener
      | some c =>
        if c = composite.closer then skip >>= fun _ => pure items.toList
        else within composite opener (inner n) >>= fun item => blanks >>= fun _ =>
          optionalComma >>= fun _ =>
            repeatUpTo rounds (items.push item) (expressionRound inner n composite opener) := by
  rw [repeatUpTo, expressionRound, bind_assoc]
  refine bind_congr fun c? => ?_
  cases c? with
  | none => rfl
  | some c =>
    simp only
    split <;> simp only [bind_assoc, pure_bind]

/-- What comes behind a member: a fault if it is a second default, or a separator and more members. -/
def behindMember (rounds : Nat) (inner : Nesting → Reader Expr) (n : Nesting) (opener marker : Span)
    (entries : Keyed Expr) (default : Option (String × Span)) (marked : Bool)
    (member : Ident × Expr) : Reader (Keyed Expr × Option String) :=
  match marked, default with
  | true, some (_, first) => fail .duplicateDefault marker none (some (.firstDefault, first))
  | _, _ => do
    let key := member.1.name
    blanks
    optionalComma
    repeatUpTo rounds (entries.insert key member.2, if marked then some (key, marker) else default)
      (memberRound inner n opener)

/-- The closer, or a mark, a member and what is behind it. -/
theorem repeatUpTo_memberRound {entries : Keyed Expr} {default : Option (String × Span)} :
    repeatUpTo (rounds + 1) (entries, default) (memberRound inner n opener) =
      peek? >>= fun c? => match c? with
      | none => unterminated .object opener
      | some c =>
        if c = Composite.object.closer then
          skip >>= fun _ => pure (entries, default.map Prod.fst)
        else
          here >>= fun marker => eat '*' >>= fun marked =>
            within .object opener (keyed (inner n)) >>=
              behindMember rounds inner n opener marker entries default marked := by
  rw [repeatUpTo, memberRound, bind_assoc]
  refine bind_congr fun c? => ?_
  cases c? with
  | none => rfl
  | some c =>
    simp only
    split
    · simp only [bind_assoc, pure_bind]
    · simp only [bind_assoc]
      refine bind_congr fun marker => bind_congr fun marked => bind_congr fun member => ?_
      cases marked with
      | false => simp only [behindMember, bind_assoc, pure_bind]
      | true =>
        cases default with
        | none => simp only [behindMember, bind_assoc, pure_bind]
        | some first => rfl

theorem repeatUpTo_argumentRound {args : Array Expr} :
    repeatUpTo (rounds + 1) args (argumentRound inner n) =
      inner n >>= fun arg => blanks >>= fun _ => eat ')' >>= fun closed =>
        if closed = true then pure (args.push arg).toList
        else expect ',' .malformedExpression >>= fun _ => blanks >>= fun _ =>
          repeatUpTo rounds (args.push arg) (argumentRound inner n) := by
  simp only [repeatUpTo, argumentRound, bind_assoc]
  refine bind_congr fun arg => bind_congr fun _ => bind_congr fun closed => ?_
  split
  · exact pure_bind ..
  · simp only [bind_assoc, pure_bind]

end Composites

/-! ### Operands -/

section Operands

variable {level : List BinaryOp} {left : Expr} {operand : Reader Expr}

/-- The end of an operation, or an operator with its right operand. -/
theorem repeatUpTo_operationRound :
    repeatUpTo (rounds + 1) left (operationRound level operand) =
      blanks >>= fun _ => operator? level >>= fun op? => match op? with
      | none => pure left
      | some op => take op.token.length >>= fun _ => blanks >>= fun _ => operand >>= fun right =>
        repeatUpTo rounds (.join op left right) (operationRound level operand) := by
  simp only [repeatUpTo, operationRound, bind_assoc]
  refine bind_congr fun _ => bind_congr fun op? => ?_
  cases op? with
  | none => exact pure_bind ..
  | some op => simp only [bind_assoc, pure_bind]

end Operands

/-! ### Entries -/

/-- Nothing comes behind a fault. -/
theorem unexpected_bind {α β : Type} {kind : FaultKind} (k : α → Reader β) :
    (unexpected kind >>= k) = unexpected kind := by
  funext i
  show EStateM.bind _ _ i = _
  unfold EStateM.bind unexpected
  cases i.rest <;> rfl

/-- What comes behind an attribute and the blanks behind it. -/
def behindAttribute (rounds bound : Nat) (n : Nesting) (entries : Attributes) : Reader Attributes := do
  match ← peek? with
  | some '>' => pure entries
  | some ',' =>
    skip
    blanks
    repeatUpTo rounds entries (attributeRound bound n)
  | _ => unexpected .expectedAttributeSeparator

theorem repeatUpTo_attributeRound {entries : Attributes} :
    repeatUpTo (rounds + 1) entries (attributeRound bound n) =
      keyed (entryValue bound n) >>= fun member => blanks >>= fun _ =>
        behindAttribute rounds bound n (entries.insert member.1.name member.2) := by
  simp only [repeatUpTo, attributeRound, behindAttribute, bind_assoc]
  refine bind_congr fun member => bind_congr fun _ => bind_congr fun c? => ?_
  cases c? with
  | none => exact unexpected_bind _
  | some c =>
    by_cases hend : c = '>'
    · subst hend
      exact pure_bind ..
    by_cases hcomma : c = ','
    · subst hcomma
      simp only [bind_assoc, pure_bind]
    · simp only [Option.some.injEq, hend, imp_self, hcomma]
      exact unexpected_bind _

theorem entryEnd_eq : entryEnd bound n = blanks >>= fun _ => peek? >>= fun c? =>
    (if c? = some '>' then pure none else some <$> attributes bound n) >>= fun attrs =>
      expect '>' .endOfInput >>= fun _ => pure attrs := by
  rw [entryEnd]
  refine bind_congr fun _ => bind_congr fun c? => ?_
  split
  · rw [pure_bind]
  · rfl

/-- What comes behind a parameter and the blanks behind it. -/
def behindParameter (rounds : Nat) (params : Array Ident) : Reader (List Ident) := do
  match ← peek? with
  | some ',' =>
    skip
    blanks
    repeatUpTo rounds params parameterRound
  | some ')' => repeatUpTo rounds params parameterRound
  | _ => unexpected .malformedExpression

theorem repeatUpTo_parameterRound {params : Array Ident} :
    repeatUpTo (rounds + 1) params parameterRound = eat ')' >>= fun closed =>
      if closed = true then pure params.toList
      else expect '$' .malformedExpression >>= fun _ => ident >>= fun param =>
        blanks >>= fun _ => behindParameter rounds (params.push param) := by
  simp only [repeatUpTo, parameterRound, behindParameter, bind_assoc]
  refine bind_congr fun closed => ?_
  split
  · exact pure_bind ..
  simp only [bind_assoc]
  refine bind_congr fun _ => bind_congr fun param => bind_congr fun _ => bind_congr fun c? => ?_
  cases c? with
  | none => exact unexpected_bind _
  | some c =>
    by_cases hcomma : c = ','
    · subst hcomma
      simp only [bind_assoc, pure_bind]
    by_cases hround : c = ')'
    · subst hround
      exact pure_bind ..
    · simp only [Option.some.injEq, hcomma, imp_self, hround]
      exact unexpected_bind _

/-- What comes behind the name of an entry. -/
def behindName (bound : Nat) (n : Nesting) (start : Nat) (id : Ident) : Reader Entry := do
  match ← peek? with
  | some '(' => .macroDef <$> macroDef bound n start id
  | some '[' =>
    let index ← expressions (expression bound) bound n .index
    .entity <$> entity bound n start id (some index)
  | _ => .entity <$> entity bound n start id none

/-- The end of the source, or an entry and what is behind it. -/
theorem repeatUpTo_itemRound {body : Array Item} :
    repeatUpTo (rounds + 1) body (itemRound bound n) = gap >>= fun blank =>
      peek? >>= fun c? => if c?.isNone = true then pure (pushGap body blank).toList
        else entry bound n >>= fun e =>
          repeatUpTo rounds ((pushGap body blank).push (.entry e)) (itemRound bound n) := by
  simp only [repeatUpTo, itemRound, ← pushGap.eq_def, bind_assoc]
  refine bind_congr fun blank => bind_congr fun c? => ?_
  split
  · exact pure_bind ..
  · simp only [bind_assoc, pure_bind]

end Reader

end LocaleText
