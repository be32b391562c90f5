import LocaleText.Proofs.Truncation.Expr

/-!
# Operations that the limit stops at the end

What the limit stops at the end of the source within an operation or a choice, it stops on longer
sources as well, behind a clean cut.

* `Bars.operations` is about the levels of the infix operators
* `barsInner_expression` says that the readers of expressions are such as the readers inside them
  are supposed to be
-/

namespace LocaleText

open Filter (atTop Tendsto)

namespace Reader

namespace Bars

variable {α β : Type} {i : Input} {b : Nat} {n : Nesting} {inner : Nesting → Reader Expr}
  {inner' : Nat → Nesting → Reader Expr} {r : Nat → Nat}

/-! ### Signs -/

/-- An operand is missed at the end, with or without a sign. -/
theorem starves_unary {signs : Nat} : Starves (Reader.unary inner b signs n) := by
  cases signs with
  | zero => exact .unexpected
  | succ signs => exact fun _ => ⟨_, _, rfl, by simp⟩

/-- By induction on the number of signs. -/
theorem unary (h : BarsInner b inner inner') {signs : Nat} :
    ∀ {r : Nat → Nat} {n : Nesting} {i : Input}, Tendsto r atTop atTop → i.rest.length < signs →
      i.rest.length < b + 1 → Bars (unary inner (b + 1) signs n)
        (fun m => Reader.unary (inner' m) (m + 1) (r m) n) i := by
  induction signs with
  | zero => exact fun _ hi => absurd hi (Nat.not_lt_zero _)
  | succ signs ih =>
    intro r n i hr hs hi
    by_cases hnil : i.rest = []
    · exact of_quiet hnil starves_unary.quiet
    obtain ⟨c, cs, hc⟩ := List.exists_cons_of_ne_nil hnil
    have hhead : i.rest.head? = some c := by rw [hc]; rfl
    have hpred : Tendsto (fun m => r m - 1) atTop atTop := (Filter.tendsto_sub_atTop_nat 1).comp hr
    have hstep : Bars (Reader.unary inner (b + 1) (signs + 1) n)
        (fun m => Reader.unary (inner' m) (m + 1) (r m - 1 + 1) n) i := by
      refine .offset_bind (.peek?_bind hnil ?_)
      rw [hhead]
      cases hop : (some c).bind UnaryOp.ofChar? with
      | none => exact primary h hi
      | some op =>
        refine .skip_bind hhead fun l hl => ?_
        have hlt := hl.length_lt (by simp)
        refine blanks_bind (Stuck.nested starves_unary).of_unit.bind.firm fun m hm _ => ?_
        exact (Bars.nested (ih hpred (by omega) (by omega))).bind_still fun _ _ => ⟨_, _, rfl⟩
    refine hstep.congr ?_
    filter_upwards [hr.eventually_ge_atTop 1] with m hm
    rw [Nat.sub_add_cancel hm]

/-! ### Operations -/

section Operations

open Carries (operator?_bind find?_of_take)

variable {level : List BinaryOp} {left left' : Expr} {operand : Reader Expr}
  {operand' : Nat → Reader Expr}

/-- No operator has to follow. -/
theorem quiet_operationRounds {rounds : Nat} :
    Quiet (Reader.repeatUpTo rounds left (operationRound level operand)) := by
  cases rounds with
  | zero => exact Starves.unexpected.quiet
  | succ rounds =>
    intro o hstops
    obtain ⟨e, m, hrun, -⟩ := hstops
    have hok : Reader.repeatUpTo (rounds + 1) left (operationRound level operand) ⟨o, []⟩ =
        .ok left ⟨o, []⟩ := by
      have hnone : level.find? (fun op => op.token.isPrefixOf []) = none := by
        rw [List.find?_eq_none]
        intro op _
        obtain ⟨c, cs, htoken, -⟩ := op.token_head
        simp [htoken]
      rw [repeatUpTo_operationRound]
      refine (operator?_bind (i := ⟨o, []⟩) _).trans ?_
      rw [hnone]
      rfl
    exact absurd (hok.symm.trans hrun) (by simp)

/-- An operator that does not come last is read as such, whatever follows. -/
theorem operator_bind {u : Option BinaryOp → Reader α} {v : Option BinaryOp → Nat → Reader β}
    (hnone : Plain (u none))
    (h : ∀ op m, i.Takes op.token m → (m.rest = [] → ¬ StopsAtEnd (u (some op)) i) ∧
      (m.rest ≠ [] → Bars (u (some op)) (v (some op)) i)) :
    Bars (operator? level >>= u) (fun m => operator? level >>= fun op? => v op? m) i := by
  intro hstops
  cases hop : level.find? fun op => op.token.isPrefixOf i.rest with
  | none =>
    obtain ⟨e, m, hrun, hk, _⟩ := hstops
    rw [operator?_bind, hop] at hrun
    exact absurd hk (hnone i e m hrun)
  | some op =>
    rw [StopsAtEnd, operator?_bind, hop] at hstops
    obtain ⟨m, hm⟩ : ∃ m, i.Takes op.token m :=
      isPrefixOf_eq_true_iff.mp (by simpa using List.find?_some hop)
    obtain ⟨hlast, hbars⟩ := h op m hm
    by_cases hnil : m.rest = []
    · exact absurd hstops (hlast hnil)
    obtain ⟨c, cs, htoken, -⟩ := op.token_head
    have hlen := hm.length_lt (by rw [htoken]; exact List.cons_ne_nil c cs)
    have hpos := List.length_pos_iff.mpr hnil
    intro more hcut
    filter_upwards [hbars hnil hstops more hcut] with c hc
    have htake : (i.append more).rest.take 2 = i.rest.take 2 :=
      List.take_append_of_le_length (by omega)
    rwa [Yields, operator?_bind, find?_of_take htake, hop]

/-- By induction on the bound: an operator is followed by an operand. -/
theorem operationRounds {bound rounds : Nat}
    (hkeeps : ∀ j : Input, j.rest.length < bound → Keeps (Expr.shift 0) operand operand' j)
    (h : ∀ j : Input, j.rest.length < bound → Bars operand operand' j) (hstarves : Starves operand)
    (hr : Tendsto r atTop atTop) (hi : i.rest.length < bound) (hrounds : i.rest.length < rounds) :
    Bars (Reader.repeatUpTo rounds left (operationRound level operand))
      (fun m => Reader.repeatUpTo (r m) left' (operationRound level (operand' m))) i := by
  refine repeatUpTo (fun rounds r left left' i hi ih => ?_) hr hi hrounds
  have hquiet : Quiet (Reader.repeatUpTo (rounds + 1) left (operationRound level operand)) :=
    quiet_operationRounds
  simp only [repeatUpTo_operationRound] at hquiet ⊢
  refine blanks_bind (.quiet fun _ o => hquiet o) fun l hl _ => ?_
  refine operator_bind .pure fun op m hm => ?_
  obtain ⟨c, cs, htoken, -⟩ := op.token_head
  have hlt := hm.length_lt (by rw [htoken]; exact List.cons_ne_nil c cs)
  refine ⟨fun hlast => ?_, fun _ => take_bind hm ?_⟩
  · exact Quiet.not_stopsAtEnd_take (.blanks_bind hstarves.bind.quiet) hm hlast
  · refine blanks_bind (.quiet fun _ => hstarves.bind.quiet) fun k hk _ => ?_
    refine .bind (hkeeps k (by omega)) (h k (by omega)) (.quiet fun _ => quiet_operationRounds)
      fun right k' _ hk' _ => ?_
    exact ih _ _ k' (by omega)

end Operations

theorem starves_operations {levels : List (List BinaryOp)} :
    Starves (Reader.operations inner (b + 1) n levels) := by
  induction levels with
  | nil => exact starves_unary
  | cons level tighter ih => exact Starves.bind ih

/-- By induction on the levels, the tightest first. -/
theorem operations (h : BarsInner b inner inner') {levels : List (List BinaryOp)} :
    ∀ {rank : Nat} {i : Input}, Ranked rank levels → 1 ≤ rank → i.rest.length < b + 1 →
      Bars (operations inner (b + 1) n levels)
        (fun m => Reader.operations (inner' m) (m + 1) n levels) i := by
  have hr := Filter.tendsto_add_atTop_nat 1
  induction levels with
  | nil =>
    intro rank i _ _ hi
    exact unary h hr hi hi
  | cons level tighter ih =>
    intro rank i hranked hpos hi
    obtain ⟨_, _, hranked⟩ := hranked
    have hkeeps : ∀ j : Input, j.rest.length < b + 1 → Keeps (Expr.shift 0)
        (Reader.operations inner (b + 1) n tighter)
        (fun m => Reader.operations (inner' m) (m + 1) n tighter) j :=
      fun j hj => h.operations hranked (by omega) hj
    refine .bind (hkeeps i hi) (ih hranked (by omega) hi) (.quiet fun _ => quiet_operationRounds)
      fun first l _ hl _ => ?_
    exact operationRounds hkeeps (fun j hj => ih hranked (by omega) hj) starves_operations hr
      (by omega) (by omega)

/-- By cases on where the source ends: within the test, or within one of the branches. -/
theorem conditional (h : BarsInner b inner inner') (hi : i.rest.length < b + 1) :
    Bars (conditional inner (b + 1) n) (fun m => Reader.conditional (inner' m) (m + 1) n) i := by
  have hr := Filter.tendsto_add_atTop_nat 1
  refine .bind (h.operations ranked_levels (Nat.le_refl 1) hi)
    (operations h ranked_levels (Nat.le_refl 1) hi)
    (.quiet fun _ => .blanks_bind (.eat_bind .pure)) fun test l _ hl _ => ?_
  refine blanks_bind (.quiet fun _ => .eat_bind .pure) fun m hm hne => ?_
  refine .eat_bind hne (fun k hk => ?_) fun _ => .pure
  have hlt := hk.length_lt (by simp)
  refine blanks_bind (h.stuck n).of_unit.bind.firm fun k₁ hk₁ _ => ?_
  refine .bind (h.keeps (by omega)) (h.bars n k₁ (by omega))
    (.quiet fun _ => .blanks_bind Starves.expect.bind.quiet) fun consequent k₂ _ hk₂ _ => ?_
  refine blanks_bind (.quiet fun _ => Starves.expect.bind.quiet) fun k₃ hk₃ _ => ?_
  refine .bind (.const fun _ => .expect (by decide)) (of_plain (.expect (by simp)))
    (h.stuck n).of_unit.bind.blanks_bind.firm fun _ k₄ _ hk₄ _ => ?_
  refine blanks_bind (h.stuck n).of_unit.bind.firm fun k₅ hk₅ _ => ?_
  exact (h.bars n k₅ (by omega)).bind_still fun _ _ => ⟨_, _, rfl⟩

end Bars

/-- By induction on the bound: an expression reads those inside it with a smaller one. -/
theorem barsInner_expression (b : Nat) : BarsInner b (expression b) fun c => expression c := by
  have hstuck : ∀ (b : Nat) (n : Nesting),
      Stuck (fun _ : Unit => expression b n) fun (_ : Unit) c => expression c n := by
    intro b n
    cases b with
    | zero => exact .inl fun _ => .unexpected
    | succ b => exact .of_succ (.nested Bars.starves_operations.bind)
  induction b with
  | zero => exact ⟨.expression 0, fun _ _ hi => absurd hi (Nat.not_lt_zero _), hstuck 0⟩
  | succ b ih =>
    refine ⟨.expression _, fun n i hi => .of_succ ?_, hstuck _⟩
    have hnested : Bars (nested n fun n => conditional (expression b) (b + 1) n)
        (fun c => nested n ((fun c n => conditional (expression c) (c + 1) n) c)) i :=
      .nested (Bars.conditional ih hi)
    exact hnested

/-- The readers inside a value may have the bound of the value. -/
theorem barsInner_expression_succ (b : Nat) :
    BarsInner b (expression b) fun c => expression (c + 1) := by
  obtain ⟨-, hbars, hstuck⟩ := barsInner_expression b
  have hr := Filter.tendsto_add_atTop_nat 1
  exact ⟨.expression_succ b, fun n i hi => (hbars n i hi).comp hr, fun n => (hstuck n).comp hr⟩

end Reader

end LocaleText
