import LocaleText.Proofs.Completion.Expr

/-!
# Completing operations

What completes an operation or a choice that the source ends within, up to whole expressions.

* `Completes.operations` is about the levels of the infix operators
* `completesInner_expression` says that the readers of expressions are such as the readers inside
  them are supposed to be
-/

namespace LocaleText

open Filter (atTop Tendsto)

namespace Reader

namespace Completes

variable {i l : Input} {b : Nat} {n : Nesting} {inner : Nesting → Reader Expr}
  {inner' : Nat → Nesting → Reader Expr} {r : Nat → Nat} {a q : Nat}

/-! ### Signs -/

/-- A digit, without a sign. -/
theorem fresh_unary (hr : Tendsto r atTop atTop) : Fresh 1 Solid Closed fun (_ : Unit) m =>
    Reader.unary (inner' m) (m + 1) (r m) n := by
  refine ⟨['0'], by decide, fun rest hrest => ⟨.cons (by decide) (by decide), ?_⟩⟩
  filter_upwards [hr.eventually_ge_atTop 1] with m hm
  intro _ o
  rw [← Nat.sub_add_cancel hm]
  exact .offset_bind (.peek?_bind (primary_digit hrest))

/-- By induction on the number of signs. -/
theorem unary (h : CompletesInner b inner inner') {signs : Nat} :
    ∀ {r : Nat → Nat} {n : Nesting} {i : Input}, Tendsto r atTop atTop → n.limit = none →
      i.rest.length < signs → i.rest.length < b + 1 →
      Completes 3 Closed (unary inner (b + 1) signs n)
        (fun m => Reader.unary (inner' m) (m + 1) (r m) n) i := by
  induction signs with
  | zero => exact fun _ _ hi => absurd hi (Nat.not_lt_zero _)
  | succ signs ih =>
    intro r n i hr hn hs hi
    by_cases hnil : i.rest = []
    · exact fun _ => .of_fresh hnil (fun _ h => h.2) (by decide) (fresh_unary hr)
    have hdeeper : n.deeper.limit = none := hn
    have hpred : Tendsto (fun m => r m - 1) atTop atTop := (Filter.tendsto_sub_atTop_nat 1).comp hr
    have hstep : Completes 3 Closed (Reader.unary inner (b + 1) (signs + 1) n)
        (fun m => Reader.unary (inner' m) (m + 1) (r m - 1 + 1) n) i := by
      refine .offset_bind (.peek?_bind (fun h => absurd h hnil) fun c hc => ?_)
      cases hop : (some c).bind UnaryOp.ofChar? with
      | none => exact primary h hn hi
      | some op =>
        simp only [nested_of_none hn]
        refine .skip_bind hc fun l hl => ?_
        have hlt := hl.length_lt (by simp)
        refine blanks_bind ((fresh_unary hpred).bind .pure) (by decide) fun m hm _ => ?_
        have harg := ih hpred hdeeper (i := m) (by omega) (by omega)
        exact (harg.le (by decide)).bind_still (fun _ _ => ⟨_, rfl⟩) fun _ _ _ => ⟨_, rfl⟩
    refine hstep.congr rfl ?_
    filter_upwards [hr.eventually_ge_atTop 1] with m hm
    rw [Nat.sub_add_cancel hm]

/-! ### Infix operators -/

section Operations

open Carries (token_eq operator?_bind)

variable {level : List BinaryOp} {left left' : Expr} {operand : Reader Expr}
  {operand' : Nat → Reader Expr}

/-- An operator that comes next is not made longer. -/
theorem find?_append {v more : List Char} (hv : v ≠ []) (hmore : Detached more) :
    level.find? (fun op => op.token.isPrefixOf (v ++ more)) =
      level.find? fun op => op.token.isPrefixOf v := by
  have hseconds : ∀ op : BinaryOp, (∃ c, op.token = [c]) ∨ ∃ c d, op.token = [c, d] ∧ d ∈ seconds := by
    intro op
    cases op <;> simp [BinaryOp.token, seconds]
  congr 1
  funext op
  rcases hseconds op with ⟨c, hc⟩ | ⟨c, d, hcd, hd⟩
  · have hhead : (v ++ more).head? = v.head? := Input.head?_append (i := ⟨0, v⟩) hv more
    rw [hc, isPrefixOf_singleton, isPrefixOf_singleton, hhead]
  · rw [hcd, hmore.isPrefixOf_append hv hd]

/-- A closer is no operator. -/
theorem find?_eq_none_of_closed {v : List Char} (hv : Closed v) :
    level.find? (fun op => op.token.isPrefixOf v) = none := by
  rw [List.find?_eq_none]
  intro op _ hprefix
  obtain ⟨c, cs, htoken, hc, -⟩ := op.token_head
  have hheads : ∀ c ∈ BinaryOp.heads, c ∉ closers := forall_mem_of_all (by decide)
  refine hv.ne (hheads c hc) ?_
  obtain ⟨more, rfl⟩ := List.isPrefixOf_iff_prefix.mp hprefix
  rw [htoken]
  rfl

/-- No operator has to follow. -/
theorem fresh_operationRounds {ι : Type} (hr : Tendsto r atTop atTop) (left : ι → Expr) :
    Fresh 0 Closed Closed fun b m =>
      Reader.repeatUpTo (r m) (left b) (operationRound level (operand' m)) := by
  refine .repeatUpTo [] hr (fun _ h => h) fun m left o rest hrest => ⟨left, o, ?_⟩
  rw [operationRound, blanks_bind_eq_ok]
  refine ⟨[], _, .refl hrest.solid.1, ?_⟩
  rw [operator?_bind, List.nil_append, find?_eq_none_of_closed hrest]
  rfl

section Binds

variable {α β : Type} {F : List Char → Prop}

/-- An operator that comes next is read as such, whatever the text is that completes the source. -/
theorem operator_bind {u : Option BinaryOp → Reader α} {v : Option BinaryOp → Nat → Reader β}
    (hi : i.rest ≠ []) (h : Completes a F (u (level.find? fun op => op.token.isPrefixOf i.rest))
      (v (level.find? fun op => op.token.isPrefixOf i.rest)) i) :
    Completes a F (operator? level >>= u) (fun m => operator? level >>= fun op? => v op? m) i := by
  refine h.of_run (Nat.le_refl _) (fun hx => ?_)
    fun more rest hmore => .of_forall fun m hends => .of_eq ?_ hends
  · rwa [Exhausts, operator?_bind] at hx
  · rw [operator?_bind, Input.append, find?_append hi hmore]

theorem take_bind {token : List Char} {u : Unit → Reader α} {v : Unit → Nat → Reader β}
    (ht : i.Takes token l) (h : Completes a F (u ()) (v ()) l) :
    Completes a F (take token.length >>= u) (fun m => take token.length >>= fun a => v a m) i := by
  have hlen := ht.length
  refine h.of_run (by omega) (fun hx => ?_)
    fun more rest _ => .of_forall fun m hends => .of_eq ?_ hends
  · rwa [Exhausts, Reader.take_bind ht] at hx
  · exact Reader.take_bind (ht.append more) _

end Binds

/-- By induction on the bound. An operator that has been begun needs an operand behind it. -/
theorem operationRounds {bound rounds : Nat}
    (hkeeps : ∀ j : Input, j.rest.length < bound → Keeps (Expr.shift 0) operand operand' j)
    (h : ∀ j : Input, j.rest.length < bound → Completes 3 Closed operand operand' j)
    (hfresh : Fresh 1 Solid Closed fun _ : Unit => operand') (hr : Tendsto r atTop atTop)
    (hi : i.rest.length < bound) (hrounds : i.rest.length < rounds) :
    Completes 3 Closed (Reader.repeatUpTo rounds left (operationRound level operand))
      (fun m => Reader.repeatUpTo (r m) left' (operationRound level (operand' m))) i := by
  refine repeatUpTo (fun rounds r left left' i hr hi ih => ?_) hr hi hrounds
  simp only [repeatUpTo_operationRound]
  refine blanks_bind (q := 0) ?_ (by decide) fun l hl hne => ?_
  · refine ⟨[], Nat.le_refl 0, fun rest hrest => ⟨hrest.solid, .of_forall fun m _ o => ?_⟩⟩
    refine .of_eq (operator?_bind _) ?_
    rw [List.nil_append, find?_eq_none_of_closed hrest]
    exact .pure
  refine operator_bind hne ?_
  cases hop : level.find? fun op => op.token.isPrefixOf l.rest with
  | none => exact .pure fun _ h => h.detached
  | some op =>
    obtain ⟨m, hm⟩ : ∃ m, l.Takes op.token m :=
      isPrefixOf_eq_true_iff.mp (by simpa using List.find?_some hop)
    obtain ⟨c, cs, htoken, -⟩ := op.token_head
    have hlt := hm.length_lt (by rw [htoken]; exact List.cons_ne_nil c cs)
    refine take_bind hm ?_
    refine blanks_bind (hfresh.of_unit.bind (fresh_operationRounds hr _)) (by decide) fun k hk _ => ?_
    refine .bind (hkeeps k (by omega)) (h k (by omega)) (fresh_operationRounds hr _) (by decide)
      fun right k' _ hk' _ => ?_
    exact ih _ _ k' (by omega)

end Operations

theorem fresh_operations {levels : List (List BinaryOp)} : Fresh 1 Solid Closed fun (_ : Unit) m =>
    Reader.operations (inner' m) (m + 1) n levels := by
  induction levels with
  | nil => exact fresh_unary (Filter.tendsto_add_atTop_nat 1)
  | cons level tighter ih =>
    exact Fresh.bind (k := 0) ih (fresh_operationRounds (Filter.tendsto_add_atTop_nat 1) _)

/-- By induction on the levels, the tightest first. -/
theorem operations (h : CompletesInner b inner inner') (hn : n.limit = none)
    {levels : List (List BinaryOp)} :
    ∀ {rank : Nat} {i : Input}, Ranked rank levels → 1 ≤ rank → i.rest.length < b + 1 →
      Completes 3 Closed (operations inner (b + 1) n levels)
        (fun m => Reader.operations (inner' m) (m + 1) n levels) i := by
  have hr := Filter.tendsto_add_atTop_nat 1
  induction levels with
  | nil =>
    intro rank i _ _ hi
    exact unary h hr hn hi hi
  | cons level tighter ih =>
    intro rank i hranked hpos hi
    obtain ⟨_, _, hranked⟩ := hranked
    have hkeeps : ∀ j : Input, j.rest.length < b + 1 → Keeps (Expr.shift 0)
        (Reader.operations inner (b + 1) n tighter)
        (fun m => Reader.operations (inner' m) (m + 1) n tighter) j :=
      fun j hj => h.operations hranked (by omega) hj
    refine .bind (hkeeps i hi) (ih hranked (by omega) hi) (fresh_operationRounds hr _) (by decide)
      fun first l _ hl _ => ?_
    exact operationRounds hkeeps (fun j hj => ih hranked (by omega) hj) fresh_operations hr
      (by omega) (by omega)

/-! ### Whole expressions -/

/-- No question has to be asked. -/
theorem fresh_question {ι : Type} {v : ι → Nat → Reader Expr} (test : ι → Expr) :
    Fresh 0 Closed Closed fun b m =>
      eat '?' >>= fun asked => if asked = true then v b m else Pure.pure (test b) := by
  refine ⟨[], Nat.le_refl 0, fun rest hrest => ⟨hrest, .of_forall fun m b o => ?_⟩⟩
  exact .eat_bind_of_ne (hrest.ne (by decide)) .pure

/-- A digit, without a question mark. -/
theorem fresh_conditional : Fresh 1 Solid Closed fun (_ : Unit) m =>
    Reader.conditional (inner' m) (m + 1) n :=
  Fresh.bind (k := 0) fresh_operations
    (.blanks_bind (fun _ h => h.solid) (fresh_question Prod.snd))

section Branches

variable {ι : Type} (choice : ι → Expr → Expr)

theorem fresh_alternate (h : CompletesInner b inner inner') (hn : n.limit = none) :
    Fresh 1 Solid Closed fun b m => inner' m n >>= fun alternate => Pure.pure (choice b alternate) :=
  Fresh.bind (k := 0) (h.fresh n hn).of_unit .pure

theorem fresh_behindConsequent (h : CompletesInner b inner inner') (hn : n.limit = none) :
    Fresh 2 Closed Closed fun b m => Reader.expect ':' .malformedExpression >>= fun _ =>
      Reader.blanks >>= fun _ => inner' m n >>= fun alternate => Pure.pure (choice b alternate) :=
  .mono (fun _ => Begins.closed (by decide))
    (.expect_bind rfl (.blanks_bind (fun _ h => h) (fresh_alternate choice h hn)))

end Branches

/-- By cases on where the source ends: within the test, or within one of the branches. -/
theorem conditional (h : CompletesInner b inner inner') (hn : n.limit = none)
    (hi : i.rest.length < b + 1) :
    Completes 4 Closed (conditional inner (b + 1) n)
      (fun m => Reader.conditional (inner' m) (m + 1) n) i := by
  have hr := Filter.tendsto_add_atTop_nat 1
  have hsolid : ∀ v, Closed v → Solid v := fun _ h => h.solid
  refine .bind (h.operations ranked_levels (Nat.le_refl 1) hi)
    (operations h hn ranked_levels (Nat.le_refl 1) hi) (.blanks_bind hsolid (fresh_question id))
    (by decide) fun test l _ hl _ => ?_
  refine blanks_bind (.mono hsolid (fresh_question _)) (by decide) fun m hm hne => ?_
  refine .eat_bind (fun hnil => absurd hnil hne) (fun k hk => ?_) fun _ _ => .pure fun _ h => h.detached
  have hlt := hk.length_lt (by simp)
  -- the question mark pays for the colon and the alternate
  refine blanks_bind (q := 3) ?_ (by decide) fun k₁ hk₁ _ => ?_
  · exact Fresh.bind (k := 2) (h.fresh n hn) (.blanks_bind hsolid (fresh_behindConsequent _ h hn))
  refine .bind (h.keeps (by omega)) (h.completes n k₁ hn (by omega))
    (.blanks_bind hsolid (fresh_behindConsequent _ h hn)) (Nat.le_refl 6) fun consequent k₂ _ hk₂ _ => ?_
  refine blanks_bind (.mono hsolid (fresh_behindConsequent _ h hn)) (by decide) fun k₃ hk₃ _ => ?_
  refine .bind (K := Solid) (.const fun _ => .expect (by decide))
    (expect (m := 0) (fun _ h => h.2) (by decide) (by decide) rfl) (.blanks_bind (fun _ h => h)
      (fresh_alternate _ h hn)) (by decide) fun _ k₄ _ hk₄ _ => ?_
  refine blanks_bind (fresh_alternate _ h hn) (by decide) fun k₅ hk₅ _ => ?_
  exact ((h.completes n k₅ hn (by omega)).le (by decide)).bind_still (fun _ _ => ⟨_, rfl⟩)
    fun _ _ _ => ⟨_, rfl⟩

end Completes

/-- By induction on the bound: an expression reads those inside it with a smaller one. -/
theorem completesInner_expression (b : Nat) :
    CompletesInner b (expression b) fun c => expression c := by
  have hfresh : ∀ n : Nesting, n.limit = none →
      Fresh 1 Solid Closed fun (_ : Unit) c => expression c n := by
    intro n hn
    refine Fresh.succ_iff.mp ?_
    simp only [expression, nested_of_none hn]
    exact Completes.fresh_conditional
  induction b with
  | zero =>
    exact ⟨.expression 0, fun _ _ _ hi => absurd hi (Nat.not_lt_zero _), hfresh⟩
  | succ b ih =>
    refine ⟨.expression _, fun n i hn hi hx => ?_, hfresh⟩
    refine Completable.succ_iff.mp ?_
    rw [expression, nested_of_none hn] at hx
    simp only [expression, nested_of_none hn]
    exact Completes.conditional ih hn hi hx

/-- The readers inside a value may have the bound of the value. -/
theorem completesInner_expression_succ (b : Nat) :
    CompletesInner b (expression b) fun c => expression (c + 1) := by
  obtain ⟨-, hcompletes, hfresh⟩ := completesInner_expression b
  refine ⟨.expression_succ b, fun n i hn hi hx => ?_, fun n hn => ?_⟩
  · exact Completable.succ_iff.mpr (hcompletes n i hn hi hx)
  · exact Fresh.succ_iff.mpr (hfresh n hn)

end Reader

end LocaleText
