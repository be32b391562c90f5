import LocaleText.Proofs.Truncation.Basic

/-!
# Operands that the limit stops at the end

What the limit stops at the end of the source within a value or an operand, it stops on longer
sources as well, behind a clean cut.

* `BarsInner` is the hypothesis about the readers of the expressions one level further in
* `Bars.expressions` and `Bars.members` are about composites: at the end they miss their closers
  before they nest
* `Bars.value` is about values
* `Bars.arguments` is about calls: at the end the first argument is entered before anything is
  missed
* `Bars.primary` is about operands without an operator
-/

namespace LocaleText

open Filter (atTop Tendsto)

namespace Reader

/-- Readers of the expressions one level further in as in `KeepsInner`. Where the limit stops the
first one at the end of the source, it stops the others behind a clean cut. -/
structure BarsInner (b : Nat) (inner : Nesting → Reader Expr) (inner' : Nat → Nesting → Reader Expr) :
    Prop extends KeepsInner b inner inner' where
  bars : ∀ (n : Nesting) (i : Input), i.rest.length < b → Bars (inner n) (fun c => inner' c n) i
  stuck : ∀ n : Nesting, Stuck (fun _ : Unit => inner n) fun (_ : Unit) c => inner' c n

namespace Bars

variable {α β γ δ ι κ : Type} {i l : Input} {c : Char} {b : Nat} {n : Nesting}
  {inner : Nesting → Reader Expr} {inner' : Nat → Nesting → Reader Expr} {r : Nat → Nat}

/-! ### Arrays and indices -/

section Items

variable {composite : Composite} {opener : Span}

/-- At the end the closer is missed. -/
theorem starves_expressionRounds {rounds : Nat} {items : Array Expr} :
    Starves (Reader.repeatUpTo rounds items (expressionRound inner n composite opener)) := by
  cases rounds with
  | zero => exact .unexpected
  | succ rounds => exact fun _ => ⟨_, _, rfl, by simp⟩

theorem expressionRounds (h : BarsInner b inner inner') {rounds : Nat} {items items' : Array Expr}
    (hr : Tendsto r atTop atTop) (hi : i.rest.length < b) (hrounds : i.rest.length < rounds) :
    Bars (Reader.repeatUpTo rounds items (expressionRound inner n composite opener))
      (fun c => Reader.repeatUpTo (r c) items' (expressionRound (inner' c) n composite opener)) i := by
  refine repeatUpTo (fun rounds r items items' i hi ih => ?_) hr hi hrounds
  by_cases hnil : i.rest = []
  · exact of_quiet hnil starves_expressionRounds.quiet
  obtain ⟨c, cs, hc⟩ := List.exists_cons_of_ne_nil hnil
  simp only [repeatUpTo_expressionRound]
  refine .peek?_bind hnil ?_
  simp only [hc, List.head?_cons]
  refine .ite (fun _ => of_plain (.bind .skip fun _ => .pure)) fun _ => ?_
  have hquiet : ∀ items : Array Expr, Quiet (Reader.optionalComma >>= fun _ =>
      Reader.repeatUpTo rounds items (expressionRound inner n composite opener)) :=
    fun _ => .optionalComma_bind starves_expressionRounds.quiet
  refine .bind (h.keeps hi).within (h.bars n i hi).within
    (.quiet fun _ => .blanks_bind (hquiet _)) fun item l hitem _ _ => ?_
  have hlt := h.shortens hi (within_eq_ok.mp hitem)
  refine blanks_bind (.quiet fun _ => hquiet _) fun m hm _ => ?_
  refine .bind (.const fun _ => .optionalComma) (of_plain .optionalComma)
    (.quiet fun _ => starves_expressionRounds.quiet) fun _ k _ hk _ => ?_
  exact ih _ _ k (by omega)

theorem expressions (h : BarsInner b inner inner') (hi : i.rest.length < b + 1)
    (hc : i.rest.head? = some '[') :
    Bars (expressions inner (b + 1) n composite)
      (fun c => Reader.expressions (inner' c) (c + 1) n composite) i := by
  refine .here_bind (fun hnil => by simp [hnil] at hc) ?_
  refine .skip_bind hc fun l hl => ?_
  have hlt := hl.length_lt (by simp)
  refine blanks_bind (.quiet fun _ => starves_expressionRounds.quiet) fun m hm _ => ?_
  exact expressionRounds h (Filter.tendsto_add_atTop_nat 1) (by omega) (by omega)

end Items

/-! ### Keys -/

theorem starves_keyed {value : Reader α} : Starves (Reader.keyed value) := Starves.ident.bind

/-- What comes behind a colon is read whatever it is. -/
theorem keyed {value : Reader α} {value' : Nat → Reader β}
    (h : ∀ l : Input, l.rest.length < i.rest.length → Bars value value' l)
    (hstuck : Stuck (fun _ : Unit => value) fun (_ : Unit) c => value' c) :
    Bars (keyed value) (fun n => Reader.keyed (value' n)) i := by
  refine .bind (.const fun _ => .ident) (of_plain .ident)
    (.quiet fun _ => .blanks_bind (.eat_bind Starves.unexpected.quiet)) fun key l _ hlen _ => ?_
  refine blanks_bind (.quiet fun _ => .eat_bind Starves.unexpected.quiet) fun j hj hne => ?_
  refine .eat_bind hne (fun k hk => ?_) fun _ => of_plain (.unexpected (by simp))
  have hlt := hk.length_lt (by simp)
  refine blanks_bind hstuck.of_unit.bind.firm fun l' hl' _ => ?_
  exact (h l' (by omega)).bind_still fun _ _ => ⟨_, _, rfl⟩

/-! ### Objects -/

section Members

variable {opener marker : Span} {entries entries' : Keyed Expr}
  {default default' : Option (String × Span)} {marked : Bool} {member member' : Ident × Expr}

theorem starves_memberRounds {rounds : Nat} {members : Members} :
    Starves (Reader.repeatUpTo rounds members (memberRound inner n opener)) := by
  cases rounds with
  | zero => exact .unexpected
  | succ rounds => exact fun _ => ⟨_, _, rfl, by simp⟩

theorem quiet_behindMember {rounds : Nat} :
    Quiet (behindMember rounds inner n opener marker entries default marked member) := by
  have hagain : ∀ members : Members, Quiet (Reader.blanks >>= fun _ => Reader.optionalComma >>=
      fun _ => Reader.repeatUpTo rounds members (memberRound inner n opener)) :=
    fun _ => .blanks_bind (.optionalComma_bind starves_memberRounds.quiet)
  unfold behindMember
  split
  · exact .of_plain (.fail (by simp))
  · exact hagain _

theorem bars_behindMember {rounds : Nat}
    (ih : ∀ (members members' : Members) (l : Input), l.rest.length ≤ i.rest.length →
      Bars (Reader.repeatUpTo rounds members (memberRound inner n opener))
        (fun c => Reader.repeatUpTo (r c) members' (memberRound (inner' c) n opener)) l) :
    Bars (behindMember rounds inner n opener marker entries default marked member)
      (fun c => behindMember (r c) (inner' c) n opener marker entries' default' marked member') i := by
  have hagain : ∀ members members' : Members, Bars
      (Reader.blanks >>= fun _ => Reader.optionalComma >>= fun _ =>
        Reader.repeatUpTo rounds members (memberRound inner n opener))
      (fun c => Reader.blanks >>= fun _ => Reader.optionalComma >>= fun _ =>
        Reader.repeatUpTo (r c) members' (memberRound (inner' c) n opener)) i := by
    intro members members'
    refine blanks_bind (.quiet fun _ => .optionalComma_bind starves_memberRounds.quiet)
      fun m hm _ => ?_
    refine .bind (.const fun _ => .optionalComma) (of_plain .optionalComma)
      (.quiet fun _ => starves_memberRounds.quiet) fun _ k _ hk _ => ?_
    exact ih _ _ k (by omega)
  cases marked with
  | false => exact hagain _ _
  | true =>
    cases default with
    | some first => exact of_plain (.fail (by simp))
    | none =>
      cases default' with
      | none => exact hagain _ _
      | some first =>
        -- the longer input has a second default
        refine fun _ _ _ => .of_forall fun c hyields => ?_
        obtain ⟨_, _, hrun⟩ := hyields
        exact fail_ne_ok hrun

/-- By induction on the bound on the rounds. -/
theorem memberRounds (h : BarsInner b inner inner') {rounds : Nat} {members members' : Members}
    (hr : Tendsto r atTop atTop) (hi : i.rest.length < b) (hrounds : i.rest.length < rounds) :
    Bars (Reader.repeatUpTo rounds members (memberRound inner n opener))
      (fun c => Reader.repeatUpTo (r c) members' (memberRound (inner' c) n opener)) i := by
  refine repeatUpTo (fun rounds r members members' i hi ih => ?_) hr hi hrounds
  by_cases hnil : i.rest = []
  · exact of_quiet hnil starves_memberRounds.quiet
  obtain ⟨c, cs, hc⟩ := List.exists_cons_of_ne_nil hnil
  obtain ⟨entries, default⟩ := members
  obtain ⟨entries', default'⟩ := members'
  have hmember : ∀ (marked : Bool) (l : Input), l.rest.length ≤ i.rest.length → Bars
      (Reader.within .object opener (Reader.keyed (inner n)) >>=
        behindMember rounds inner n opener i.here entries default marked)
      (fun c => Reader.within .object opener (Reader.keyed (inner' c n)) >>=
        behindMember (r c) (inner' c) n opener i.here entries' default' marked) l := by
    intro marked l hl
    refine .bind (h.keyed (by omega)).within (keyed (fun m hm => ?_) (h.stuck n)).within
      (.quiet fun _ => quiet_behindMember) fun member m hmember hm _ => ?_
    · exact h.bars n m (by omega)
    · have hlt := h.keyed_shortens (by omega) (within_eq_ok.mp hmember)
      exact bars_behindMember fun _ _ k hk => ih _ _ k (by omega)
  simp only [repeatUpTo_memberRound]
  refine .peek?_bind hnil ?_
  simp only [hc, List.head?_cons]
  refine .ite (fun _ => of_plain (.bind .skip fun _ => .pure)) fun _ => ?_
  refine .here_bind hnil (.eat_bind hnil (fun l hl => ?_) fun _ => ?_)
  · exact hmember true l (Nat.le_of_lt (hl.length_lt (by simp)))
  · exact hmember false i (Nat.le_refl _)

theorem members (h : BarsInner b inner inner') (hi : i.rest.length < b + 1)
    (hc : i.rest.head? = some '\x7b') :
    Bars (members inner (b + 1) n) (fun c => Reader.members (inner' c) (c + 1) n) i := by
  refine .here_bind (fun hnil => by simp [hnil] at hc) ?_
  refine .skip_bind hc fun l hl => ?_
  have hlt := hl.length_lt (by simp)
  refine blanks_bind (.quiet fun _ => starves_memberRounds.quiet) fun m hm _ => ?_
  exact memberRounds h (Filter.tendsto_add_atTop_nat 1) (by omega) (by omega)

end Members

/-! ### Values -/

/-- There is no level for a value, or its first character is missed. -/
theorem stuck_value : Stuck (fun _ : ι => Reader.value inner (b + 1) n)
    fun (_ : κ) c => Reader.value (inner' c) (c + 1) n :=
  .nested fun _ => ⟨_, _, rfl, by simp⟩

theorem value (h : BarsInner b inner inner') (hi : i.rest.length < b + 1) :
    Bars (value inner (b + 1) n) (fun c => Reader.value (inner' c) (c + 1) n) i := by
  refine .nested ?_
  by_cases hnil : i.rest = []
  · have hstarves : Starves (Reader.unexpected .unexpectedValueStart : Reader Value) := .unexpected
    exact of_quiet hnil fun o => hstarves.quiet o
  obtain ⟨c, cs, hc⟩ := List.exists_cons_of_ne_nil hnil
  have hhead : i.rest.head? = some c := by rw [hc]; rfl
  refine .offset_bind (.peek?_bind hnil ?_)
  rw [hhead]
  by_cases hsquare : c = '['
  · subst hsquare
    exact (expressions h hi hhead).bind_still fun _ _ => ⟨_, _, rfl⟩
  by_cases hcurly : c = '\x7b'
  · subst hcurly
    exact (members h hi hhead).bind_still fun _ _ => ⟨_, _, rfl⟩
  · simp only
    exact of_plain (.ite (fun _ => .quoted) fun _ => .unexpected (by simp))

/-! ### Brackets, parentheses and arguments -/

/-- There is no level for an expression, or its first character is missed. -/
theorem stuck_enclosed (h : BarsInner b inner inner') :
    Stuck (fun _ : ι => Reader.enclosed inner n c) fun (_ : κ) m => Reader.enclosed (inner' m) n c :=
  .blanks_bind (h.stuck n).of_unit.bind

theorem enclosed (h : BarsInner b inner inner') (hi : i.rest.length < b) :
    Bars (enclosed inner n c) (fun m => Reader.enclosed (inner' m) n c) i := by
  have hplain : ∀ e : Expr, Plain (Reader.blanks >>= fun _ => Reader.expect c .malformedExpression >>=
      fun _ => Pure.pure e) := fun _ => .bind .blanks fun _ => .bind (.expect (by simp)) fun _ => .pure
  refine blanks_bind (h.stuck n).of_unit.bind.firm fun l hl _ => ?_
  refine .bind (h.keeps (by omega)) (h.bars n l (by omega)) (.quiet fun e => .of_plain (hplain e))
    fun e m _ _ _ => ?_
  exact of_plain (hplain e)

/-- Behind an argument, the closer or a comma has to follow. -/
theorem quiet_behindArgument {args : List Expr} {next : Reader (List Expr)} :
    Quiet (Reader.blanks >>= fun _ => eat ')' >>= fun closed => if closed = true then Pure.pure args
      else Reader.expect ',' .malformedExpression >>= fun _ => next) :=
  .blanks_bind (.eat_bind Starves.expect.bind.quiet)

theorem stuck_argumentRounds (h : BarsInner b inner inner') {k : Nat} {f : ι → Array Expr}
    {g : κ → Array Expr} : Stuck
      (fun a => Reader.repeatUpTo k (f a) (argumentRound inner n))
      fun a m => Reader.repeatUpTo (r m) (g a) (argumentRound (inner' m) n) := by
  rcases h.stuck n with hstarves | hrefuses
  · exact .inl fun a => .repeatUpTo (fun _ => (hstarves ()).bind) k (f a)
  · refine .inr ?_
    filter_upwards [hrefuses] with m hm
    exact fun a => .repeatUpTo (fun _ => (hm ()).bind) (r m) (g a)

theorem argumentRounds (h : BarsInner b inner inner') {rounds : Nat} {args args' : Array Expr}
    (hr : Tendsto r atTop atTop) (hi : i.rest.length < b) (hrounds : i.rest.length < rounds) :
    Bars (Reader.repeatUpTo rounds args (argumentRound inner n))
      (fun m => Reader.repeatUpTo (r m) args' (argumentRound (inner' m) n)) i := by
  refine repeatUpTo (fun rounds r args args' i hi ih => ?_) hr hi hrounds
  simp only [repeatUpTo_argumentRound]
  refine .bind (h.keeps hi) (h.bars n i hi) (.quiet fun _ => quiet_behindArgument)
    fun arg l hrun _ _ => ?_
  have hlt := h.shortens hi hrun
  refine blanks_bind (.quiet fun _ => .eat_bind Starves.expect.bind.quiet) fun m hm hne => ?_
  refine .eat_bind hne (fun _ _ => .pure) fun _ => ?_
  refine .bind (.const fun _ => .expect (by decide)) (of_plain (.expect (by simp)))
    (stuck_argumentRounds h).blanks_bind.firm fun _ k _ hk _ => ?_
  refine blanks_bind (stuck_argumentRounds h).firm fun k' hk' _ => ?_
  exact ih _ _ k' (by omega)

/-- Blanks in front of a cut go on behind it, up to a character that is none. -/
theorem exists_blanks_of_append {gap more gap' rest : List Char} {c : Char} (hgap : Blanks gap)
    (hc : isBlank c = false) (h : gap ++ more = gap' ++ c :: rest) (hgap' : Blanks gap') :
    ∃ between, more = between ++ c :: rest ∧ Blanks between := by
  rcases List.append_eq_append_iff.mp h with ⟨between, rfl, hmore⟩ | ⟨behind, rfl, hbehind⟩
  · exact ⟨between, hmore, fun d hd => hgap' d (List.mem_append_right gap hd)⟩
  · cases behind with
    | nil => exact ⟨[], by simpa using hbehind.symm, fun d hd => absurd hd (by simp)⟩
    | cons d ds =>
      obtain rfl : c = d := (List.cons.inj hbehind).1
      have hblank := hgap c (by simp)
      rw [hc] at hblank
      exact absurd hblank (by decide)

/-- A call that is cut behind its opener is not closed there, where the cut is clean. -/
theorem not_eat_of_cleanCut {gap more : List Char} {k : Input}
    (hopen : i.rest = '(' :: gap) (hgap : Blanks gap) (hcut : CleanCut i.rest more)
    (h : (skip >>= fun _ => Reader.blanks) (i.append more) = .ok () k) : k.rest.head? ≠ some ')' := by
  intro hround
  obtain ⟨behind, hbehind⟩ : ∃ behind, k.rest = ')' :: behind := by
    obtain ⟨m, hm⟩ := Input.exists_takes_head hround
    exact ⟨m.rest, hm.rest⟩
  have hhead : i.rest.head? = some '(' := by rw [hopen]; rfl
  obtain ⟨l, hl, h⟩ := (skip_bind_eq_ok (Input.head?_append_of_head? hhead more)).mp h
  obtain ⟨gap', hskips⟩ := blanks_eq_ok.mp h
  have htext : '(' :: (gap ++ more) = '(' :: (gap' ++ ')' :: behind) := by
    have hrest := hl.rest
    rw [hskips.takes.rest, hbehind, Input.append, hopen] at hrest
    exact hrest
  obtain ⟨between, hmore, hbetween⟩ :=
    exists_blanks_of_append hgap (by decide) (List.cons.inj htext).2 hskips.blank
  exact hcut.open_call ⟨[], gap, between, behind, hopen, hmore, hgap, hbetween⟩

/-- By cases on whether anything is left behind the opener. If nothing is, the cut is clean only if
arguments follow, and these are read whatever they are. -/
theorem arguments (h : BarsInner b inner inner') (hi : i.rest.length < b + 1)
    (hc : i.rest.head? = some '(') :
    Bars (arguments inner (b + 1) n) (fun m => Reader.arguments (inner' m) (m + 1) n) i := by
  have hr := Filter.tendsto_add_atTop_nat 1
  simp only [Reader.arguments, ← bind_assoc skip]
  refine bind_of_end (.of_succ fun m => .skip_bind hc fun _ _ => .blanks)
    (of_plain (.bind .skip fun _ => .blanks)) (fun _ l hl hnil hstops more hcut => ?_)
    fun _ l hl _ hne => ?_
  all_goals obtain ⟨k, hk, hblanks⟩ := (skip_bind_eq_ok hc).mp hl
  all_goals obtain ⟨gap, hgap⟩ := blanks_eq_ok.mp hblanks
  · rcases stuck_argumentRounds h (n := n) (r := fun m => m + 1) (k := b + 1)
      (f := fun _ : Unit => #[]) (g := fun _ : Unit => #[]) with hstarves | hrefuses
    · exact absurd hstops (Quiet.not_stopsAtEnd (.eat_bind (hstarves ()).quiet) hnil)
    · filter_upwards [hrefuses] with m hm
      intro hyields
      obtain ⟨_, j, hj, hyields⟩ := hyields.of_bind
      have hopen : i.rest = '(' :: gap := by
        have hrest := hk.rest
        rwa [hgap.takes.rest, hnil, List.append_nil] at hrest
      obtain ⟨closed, k', heat, hyields⟩ := hyields.of_bind
      rcases eat_eq_ok.mp heat with ⟨hround, _⟩ | ⟨_, _, rfl⟩
      · exact not_eat_of_cleanCut hopen hgap.blank hcut hj hround.head
      · exact hm () _ hyields
  · have hlt := hk.length_lt (by simp)
    have hlen := hgap.takes.length
    exact .eat_bind hne (fun _ _ => .pure) fun _ => argumentRounds h hr (by omega) (by omega)

/-! ### Names and what is attached to them -/

section Attached

open Carries (attached selected attached_of_dot attached_of_square isPrefixOf_of_take)

variable {start start' : Nat} {id id' : Ident}

/-- Whatever the bracket behind a name opens, a key follows. -/
theorem not_yields_attached {inner : Nesting → Reader Expr} (hsquare : i.rest.head? = some '[')
    (h : Refuses (Reader.enclosed inner n ']')) : ¬ Yields (attached inner b n start id) i := by
  have hselected : ∀ selection : Selection, Refuses (selected inner n start selection id) :=
    fun _ => h.bind
  intro hyields
  by_cases hdot : ['[', '.'].isPrefixOf i.rest = true
  · rw [Yields, attached_of_dot hdot] at hyields
    exact Refuses.bind_right (fun _ => .bind_right fun _ => hselected .attribute) i hyields
  · rw [Yields, attached_of_square hsquare hdot] at hyields
    exact Refuses.bind_right (fun _ => hselected .member) i hyields

/-- By cases on what comes next. If the bracket comes last, the kind of the index is open, but not
that a key follows. -/
theorem bars_attached (h : BarsInner b inner inner') (hi : i.rest.length < b + 1)
    (hne : i.rest ≠ []) : Bars (attached inner (b + 1) n start id)
      (fun m => attached (inner' m) (m + 1) n start' id') i := by
  have hhead := Input.head?_append hne
  have hselected : ∀ (selection : Selection) (j : Input), j.rest.length < b → Bars
      (selected inner n start selection id) (fun m => selected (inner' m) n start' selection id') j :=
    fun _ _ hj => (enclosed h hj).bind_still fun _ _ => ⟨_, _, rfl⟩
  by_cases hsquare : i.rest.head? = some '['
  · obtain ⟨l, hl⟩ := Input.exists_takes_head hsquare
    have hlt := hl.length_lt (by simp)
    have hsame : l.rest ≠ [] → ∀ more,
        ['[', '.'].isPrefixOf (i.append more).rest = ['[', '.'].isPrefixOf i.rest := by
      intro hl' more
      have hpos := List.length_pos_iff.mpr hl'
      exact isPrefixOf_of_take (List.take_append_of_le_length (by omega))
    by_cases hdot : ['[', '.'].isPrefixOf i.rest = true
    · obtain ⟨m, hboth⟩ := isPrefixOf_eq_true_iff.mp hdot
      obtain ⟨l', hl', hm⟩ := Input.takes_cons.mp hboth
      obtain rfl := hl.unique hl'
      have hlt' := hm.length_lt (by simp)
      have hbehind : l.rest ≠ [] := List.ne_nil_of_length_pos (by omega)
      refine (hselected .attribute m (by omega)).of_run hboth.rest (fun hstops => ?_)
        fun more _ c hyields => ?_
      · rwa [StopsAtEnd, attached_of_dot hdot, Reader.skip_bind hl, Reader.skip_bind hm] at hstops
      · rwa [Yields, attached_of_dot ((hsame hbehind more).trans hdot),
          Reader.skip_bind (hl.append more), Reader.skip_bind (hm.append more)] at hyields
    by_cases hbehind : l.rest = []
    · intro hstops more _
      rw [StopsAtEnd, attached_of_square hsquare hdot, Reader.skip_bind hl] at hstops
      rcases stuck_enclosed h (n := n) (c := ']') (ι := Unit) (κ := Unit) with hstarves | hrefuses
      · exact absurd hstops ((hstarves ()).bind.quiet.not_stopsAtEnd hbehind)
      · filter_upwards [hrefuses] with m hm
        exact not_yields_attached ((hhead more).trans hsquare) (hm ())
    · refine (hselected .member l (by omega)).of_run hl.rest (fun hstops => ?_)
        fun more _ c hyields => ?_
      · rwa [StopsAtEnd, attached_of_square hsquare hdot, Reader.skip_bind hl] at hstops
      · rwa [Yields, attached_of_square ((hhead more).trans hsquare) (by rwa [hsame hbehind]),
          Reader.skip_bind (hl.append more)] at hyields
  · refine .looksAt_bind (fun more _ => ?_) ?_
    · rw [isPrefixOf_of_head?_ne hsquare, isPrefixOf_of_head?_ne ((hhead more).symm ▸ hsquare)]
    rw [isPrefixOf_of_head?_ne hsquare]
    refine .looksAt_bind (fun more _ => by rw [isPrefixOf_singleton, isPrefixOf_singleton, hhead]) ?_
    rw [isPrefixOf_singleton, beq_eq_false_iff_ne.mpr hsquare]
    refine .looksAt_bind (fun more _ => by rw [isPrefixOf_singleton, isPrefixOf_singleton, hhead]) ?_
    refine .ite (fun hp => ?_) fun _ => .pure
    rw [isPrefixOf_singleton, beq_iff_eq] at hp
    exact (arguments h hi hp).bind_still fun _ _ => ⟨_, _, rfl⟩

/-- Nothing has to be attached to a name. -/
theorem quiet_attached : Quiet (attached inner b n start id) := by
  intro o hstops
  obtain ⟨e, m, hrun, -⟩ := hstops
  have hok : attached inner b n start id ⟨o, []⟩ = .ok (.ident id) ⟨o, []⟩ := rfl
  exact absurd (hok.symm.trans hrun) (by simp)

theorem named (h : BarsInner b inner inner') (hi : i.rest.length < b + 1) :
    Bars (named inner (b + 1) n) (fun m => Reader.named (inner' m) (m + 1) n) i := by
  refine .offset_bind ?_
  refine .bind (.const fun _ => .ident) (of_plain .ident) (.quiet fun _ => quiet_attached)
    fun id l _ hl hne => ?_
  exact bars_attached h (by omega) hne

end Attached

/-! ### Operands -/

theorem starves_primary : Starves (Reader.primary inner b n) := fun _ => ⟨_, _, rfl, by simp⟩

/-- An operand is told by its first character, which is there. -/
theorem primary (h : BarsInner b inner inner') (hi : i.rest.length < b + 1) :
    Bars (primary inner (b + 1) n) (fun m => Reader.primary (inner' m) (m + 1) n) i := by
  by_cases hnil : i.rest = []
  · exact of_quiet hnil starves_primary.quiet
  obtain ⟨c, cs, hc⟩ := List.exists_cons_of_ne_nil hnil
  have hhead : i.rest.head? = some c := by rw [hc]; rfl
  refine .offset_bind (.peek?_bind hnil ?_)
  simp only [hhead]
  refine .ite (fun _ => ?_) fun _ => ?_
  · refine .skip_bind hhead fun l hl => ?_
    have hlt := hl.length_lt (by simp)
    exact (enclosed h (by omega)).bind_still fun _ _ => ⟨_, _, rfl⟩
  refine .ite (fun _ => of_plain .integer) fun _ => ?_
  refine .ite (fun _ => (value h hi).bind_still fun _ _ => ⟨_, _, rfl⟩) fun _ => ?_
  refine .ite (fun _ => named h hi) fun _ => ?_
  refine .ite (fun _ => of_plain .reference) fun _ => ?_
  refine .ite (fun _ => of_plain .reference) fun _ => ?_
  refine .ite (fun _ => of_plain ?_) fun _ => of_plain (.unexpected (by simp))
  exact .bind .skip fun _ => .bind .spanFrom fun _ => .pure

end Bars

end Reader

end LocaleText
