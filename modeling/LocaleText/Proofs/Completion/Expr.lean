import LocaleText.Proofs.Completion.Token

/-!
# Completing values and expressions

What completes an array, an object, a call, brackets or an operation that the source ends within.
Each reader is completed under the hypothesis that those of the expressions inside it are.

* `CompletesInner` is the hypothesis about the readers of the expressions one level further in
* `Completes.expressions` and `Completes.members` are about composites, whose rounds are completed
  by induction on the bound on them
* `Completes.value` is about values
* `Completes.arguments` and `Completes.named` are about names and what is attached to them
* `Completes.primary` is about operands
-/

namespace LocaleText

open Filter (atTop Tendsto)

namespace Reader

/-- Readers of the expressions one level further in as in `KeepsInner`, and where the first one runs out
the others can be completed. An expression to begin with has one byte. -/
structure CompletesInner (b : Nat) (inner : Nesting → Reader Expr)
    (inner' : Nat → Nesting → Reader Expr) : Prop extends KeepsInner b inner inner' where
  completes : ∀ (n : Nesting) (i : Input), n.limit = none → i.rest.length < b →
    Completes 4 Closed (inner n) (fun c => inner' c n) i
  fresh : ∀ n : Nesting, n.limit = none → Fresh 1 Solid Closed fun (_ : Unit) c => inner' c n

namespace Completes

variable {i l : Input} {c : Char} {b : Nat} {n : Nesting} {inner : Nesting → Reader Expr}
  {inner' : Nat → Nesting → Reader Expr} {F : List Char → Prop} {q : Nat}

/-! ### Arrays and indices -/

section Items

variable {composite : Composite} {opener : Span}

/-- An array or an index is closed. -/
theorem fresh_expressionRounds {ι : Type} (hcloser : composite.closer = ']') {r : Nat → Nat}
    (hr : Tendsto r atTop atTop) (items : ι → Array Expr) :
    Fresh 1 Closed F fun b c =>
      Reader.repeatUpTo (r c) (items b) (expressionRound (inner' c) n composite opener) := by
  refine .repeatUpTo [']'] hr (fun _ _ => .cons (by decide)) fun c items o rest _ => ?_
  refine ⟨items.toList, o + byteLength [']'], ?_⟩
  simp only [expressionRound, hcloser]
  rfl

/-- By induction on the bound: an expression is completed, or one is complete and the rest is. -/
theorem expressionRounds (h : CompletesInner b inner inner') (hn : n.limit = none)
    (hcloser : composite.closer = ']') {r : Nat → Nat} {rounds : Nat} {items items' : Array Expr}
    (hr : Tendsto r atTop atTop) (hi : i.rest.length < b) (hrounds : i.rest.length < rounds) :
    Completes 5 Detached (Reader.repeatUpTo rounds items (expressionRound inner n composite opener))
      (fun c => Reader.repeatUpTo (r c) items' (expressionRound (inner' c) n composite opener)) i := by
  refine repeatUpTo (fun rounds r items items' i hr hi ih => ?_) hr hi hrounds
  have hr' : Tendsto (fun c => r c + 1) atTop atTop := (Filter.tendsto_add_atTop_nat 1).comp hr
  have hnone : i.rest = [] → Completable 5 Detached (fun c =>
      Reader.repeatUpTo (r c + 1) items' (expressionRound (inner' c) n composite opener)) i :=
    fun hnil => .of_fresh hnil (fun _ h => h.detached) (by decide)
      (fresh_expressionRounds hcloser hr' fun _ => items')
  simp only [repeatUpTo_expressionRound] at hnone ⊢
  refine .peek?_bind hnone fun c hc => ?_
  simp only
  by_cases hclose : c = composite.closer
  · simp only [if_pos hclose]
    exact .skip_bind hc fun _ _ => .pure fun _ h => h
  · simp only [if_neg hclose]
    refine .bind (q := 1) (h.keeps hi).within (h.completes n i hn hi).within ?_ (by decide)
      fun item l hitem _ _ => ?_
    · exact .blanks_bind (fun _ h => h.solid)
        (.optionalComma_bind (fresh_expressionRounds hcloser hr _))
    have hlt := h.shortens hi (within_eq_ok.mp hitem)
    refine blanks_bind (q := 1) ?_ (by decide) fun m hm _ => ?_
    · exact .mono (fun _ h => h.solid) (.optionalComma_bind (fresh_expressionRounds hcloser hr _))
    refine .bind (.const fun _ => .optionalComma) (optionalComma (m := 0))
      (fresh_expressionRounds hcloser hr _) (by decide) fun _ k _ hk _ => ?_
    exact ih _ _ k (by omega)

theorem expressions (h : CompletesInner b inner inner') (hn : n.limit = none)
    (hcloser : composite.closer = ']') (hi : i.rest.length < b + 1) (hc : i.rest.head? = some '[') :
    Completes 3 Detached (expressions inner (b + 1) n composite)
      (fun c => Reader.expressions (inner' c) (c + 1) n composite) i := by
  have hr := Filter.tendsto_add_atTop_nat 1
  refine .here_bind (fun hnil => by simp [hnil] at hc) ?_
  refine .skip_bind hc fun l hl => ?_
  have hlt := hl.length_lt (by simp)
  refine blanks_bind (.mono (fun _ h => h.solid) (fresh_expressionRounds hcloser hr _)) (by decide)
    fun m hm _ => ?_
  exact expressionRounds h hn hcloser hr (by omega) (by omega)

end Items

/-! ### Objects -/

section Members

variable {opener : Span}

theorem fresh_memberRounds {ι : Type} {r : Nat → Nat} (hr : Tendsto r atTop atTop)
    (members : ι → Members) : Fresh 1 Closed F fun b c =>
      Reader.repeatUpTo (r c) (members b) (memberRound (inner' c) n opener) := by
  refine .repeatUpTo ['\x7d'] hr (fun _ _ => .cons (by decide)) fun c members o rest _ => ?_
  exact ⟨(members.1, members.2.map Prod.fst), o + byteLength ['\x7d'], rfl⟩

variable {marker : Span} {entries entries' : Keyed Expr} {default default' : Option (String × Span)}
  {marked : Bool} {r : Nat → Nat}

/-- A second default needs nothing behind it. -/
theorem fresh_behindMember (hr : Tendsto r atTop atTop) : Fresh 1 Closed F fun member c =>
    behindMember (r c) (inner' c) n opener marker entries default marked member := by
  have hagain : ∀ default : Ident × Expr → Option (String × Span), Fresh 1 Closed F fun member c =>
      Reader.blanks >>= fun _ => Reader.optionalComma >>= fun _ => Reader.repeatUpTo (r c)
        (entries.insert member.1.name member.2, default member) (memberRound (inner' c) n opener) :=
    fun _ => .blanks_bind (fun _ h => h.solid) (.optionalComma_bind (fresh_memberRounds hr _))
  cases marked with
  | false => exact hagain fun _ => default
  | true =>
    cases default with
    | none => exact hagain fun member => some (member.1.name, marker)
    | some first =>
      refine ⟨['\x7d'], by decide, fun rest _ => ⟨.cons (by decide), .of_forall fun _ _ _ => ?_⟩⟩
      exact .inr ⟨_, _, rfl, rfl⟩

theorem completes_behindMember {rounds : Nat} {member member' : Ident × Expr}
    (hr : Tendsto r atTop atTop)
    (ih : ∀ (members members' : Members) (l : Input), l.rest.length ≤ i.rest.length →
      Completes 5 Detached (Reader.repeatUpTo rounds members (memberRound inner n opener))
        (fun c => Reader.repeatUpTo (r c) members' (memberRound (inner' c) n opener)) l) :
    Completes 5 Detached (behindMember rounds inner n opener marker entries default marked member)
      (fun c => behindMember (r c) (inner' c) n opener marker entries' default' marked member') i := by
  have hagain : ∀ default default' : Option (String × Span), Completes 5 Detached
      (Reader.blanks >>= fun _ => Reader.optionalComma >>= fun _ => Reader.repeatUpTo rounds
        (entries.insert member.1.name member.2, default) (memberRound inner n opener))
      (fun c => Reader.blanks >>= fun _ => Reader.optionalComma >>= fun _ => Reader.repeatUpTo (r c)
        (entries'.insert member'.1.name member'.2, default') (memberRound (inner' c) n opener)) i := by
    intro default default'
    refine blanks_bind (q := 1) ?_ (by decide) fun m hm _ => ?_
    · exact .mono (fun _ h => h.solid) (.optionalComma_bind (fresh_memberRounds hr _))
    refine .bind (.const fun _ => .optionalComma) (optionalComma (m := 0)) (fresh_memberRounds hr _)
      (by decide) fun _ k _ hk _ => ?_
    exact ih _ _ k (by omega)
  cases marked with
  | false => exact hagain default default'
  | true =>
    cases default with
    | some first =>
      have hk : FaultKind.duplicateDefault ∉ FaultKind.truncated := by decide
      exact of_error (l := i) rfl hk
    | none =>
      cases default' with
      | none => exact hagain _ _
      | some first =>
        refine fun _ => ⟨[], Nat.zero_le _, fun rest hrest => ⟨hrest, .of_forall fun _ => ?_⟩⟩
        exact .inr ⟨_, _, rfl, rfl⟩

/-- By induction on the bound, as for expressions. -/
theorem memberRounds (h : CompletesInner b inner inner') (hn : n.limit = none) {rounds : Nat}
    {members members' : Members} (hr : Tendsto r atTop atTop) (hi : i.rest.length < b)
    (hrounds : i.rest.length < rounds) :
    Completes 5 Detached (Reader.repeatUpTo rounds members (memberRound inner n opener))
      (fun c => Reader.repeatUpTo (r c) members' (memberRound (inner' c) n opener)) i := by
  refine repeatUpTo (fun rounds r members members' i hr hi ih => ?_) hr hi hrounds
  have hr' : Tendsto (fun c => r c + 1) atTop atTop := (Filter.tendsto_add_atTop_nat 1).comp hr
  have hnone : i.rest = [] → Completable 5 Detached (fun c =>
      Reader.repeatUpTo (r c + 1) members' (memberRound (inner' c) n opener)) i :=
    fun hnil => .of_fresh hnil (fun _ h => h.detached) (by decide)
      (fresh_memberRounds hr' fun _ => members')
  obtain ⟨entries, default⟩ := members
  obtain ⟨entries', default'⟩ := members'
  have hmember : ∀ (marked : Bool) (l : Input), l.rest.length ≤ i.rest.length → Completes 5 Detached
      (Reader.within .object opener (Reader.keyed (inner n)) >>=
        behindMember rounds inner n opener i.here entries default marked)
      (fun c => Reader.within .object opener (Reader.keyed (inner' c n)) >>=
        behindMember (r c) (inner' c) n opener i.here entries' default' marked) l := by
    intro marked l hl
    refine .bind (h.keyed (by omega)).within (keyed (m := 4) (fun m hm => ?_) (h.fresh n hn) (by decide)).within
      (fresh_behindMember hr) (Nat.le_refl 5) fun member m hmember hm _ => ?_
    · exact h.completes n m hn (by omega)
    · have hlt := h.keyed_shortens (by omega) (within_eq_ok.mp hmember)
      exact completes_behindMember hr fun _ _ k hk => ih _ _ k (by omega)
  simp only [repeatUpTo_memberRound] at hnone ⊢
  refine .peek?_bind hnone fun c hc => ?_
  simp only
  have hne : i.rest ≠ [] := fun hnil => by simp [hnil] at hc
  by_cases hclose : c = Composite.object.closer
  · simp only [if_pos hclose]
    exact .skip_bind hc fun _ _ => .pure fun _ h => h
  · simp only [if_neg hclose]
    refine .here_bind hne (.eat_bind (fun hnil => absurd hnil hne) (fun l hl => ?_) fun _ _ => ?_)
    · exact (hmember true l (Nat.le_of_lt (hl.length_lt (by simp)))).le (by decide)
    · exact hmember false i (Nat.le_refl _)

theorem members (h : CompletesInner b inner inner') (hn : n.limit = none)
    (hi : i.rest.length < b + 1) (hc : i.rest.head? = some '\x7b') :
    Completes 3 Detached (members inner (b + 1) n)
      (fun c => Reader.members (inner' c) (c + 1) n) i := by
  have hr := Filter.tendsto_add_atTop_nat 1
  refine .here_bind (fun hnil => by simp [hnil] at hc) ?_
  refine .skip_bind hc fun l hl => ?_
  have hlt := hl.length_lt (by simp)
  refine blanks_bind (.mono (fun _ h => h.solid) (fresh_memberRounds hr _)) (by decide)
    fun m hm _ => ?_
  exact memberRounds h hn hr (by omega) (by omega)

end Members

/-! ### Values -/

/-- An empty object is a value. -/
theorem fresh_value (hn : n.limit = none) :
    Fresh 2 (Begins '\x7b') Detached fun (_ : Unit) c => Reader.value (inner' c) (c + 1) n := by
  refine ⟨['\x7b', '\x7d'], by decide, fun rest _ => ⟨rfl, .of_forall fun c _ o => ?_⟩⟩
  simp only [Reader.value, nested_of_none hn]
  refine .offset_bind (.peek?_bind ?_)
  refine @EndsBefore.bind _ _ _ _ _ rest _ ?_ fun members o => .spanFrom_bind .pure
  refine .here_bind (.skip_bind fun o => ?_)
  refine (EndsBefore.blanks (nextNot_cons.mpr (by decide))).bind fun _ o => ?_
  exact .repeatUpTo (l := ⟨o + byteLength ['\x7d'], rest⟩) rfl

/-- A value is told by its first character, which is there. -/
theorem value (h : CompletesInner b inner inner') (hn : n.limit = none)
    (hi : i.rest.length < b + 1) :
    Completes 3 Detached (value inner (b + 1) n) (fun c => Reader.value (inner' c) (c + 1) n) i := by
  by_cases hnil : i.rest = []
  · exact fun _ => .of_fresh hnil (fun _ h => (h.solid (by decide) (by decide)).2) (by decide)
      (fresh_value hn)
  have hdeeper : n.deeper.limit = none := hn
  simp only [Reader.value, nested_of_none hn]
  refine .offset_bind (.peek?_bind (fun h => absurd h hnil) fun c hc => ?_)
  by_cases hsquare : c = '['
  · subst hsquare
    exact (expressions h hdeeper rfl hi hc).bind_still (fun _ _ => ⟨_, rfl⟩) fun _ _ _ => ⟨_, rfl⟩
  by_cases hcurly : c = '\x7b'
  · subst hcurly
    exact (members h hdeeper hi hc).bind_still (fun _ _ => ⟨_, rfl⟩) fun _ _ _ => ⟨_, rfl⟩
  · simp only
    exact .ite (fun hq => (quoted hc hq).le (by decide)) fun _ => .unexpected hnil (by decide)

/-! ### Brackets, parentheses and arguments -/

theorem byteLength_closer (hc : c ∈ closers) : byteLength [c] ≤ 1 := by
  have hall : ∀ c ∈ closers, byteLength [c] ≤ 1 := forall_mem_of_all (by decide)
  exact hall c hc

theorem fresh_closer {ι : Type} (hc : c ∈ closers) (e : ι → Expr) : Fresh 1 Closed Detached fun b _ =>
    Reader.blanks >>= fun _ => Reader.expect c .malformedExpression >>= fun _ => Pure.pure (e b) := by
  refine ⟨[c], byteLength_closer hc, fun rest _ => ⟨.cons hc, .of_forall fun _ _ o => ?_⟩⟩
  have hclosed : Closed ([c] ++ rest) := .cons hc
  refine (EndsBefore.blanks hclosed.solid.1).bind fun _ o => ?_
  exact EndsBefore.expect.bind fun _ o => .pure

/-- An expression in brackets is completed, and then closed. -/
theorem enclosed (h : CompletesInner b inner inner') (hn : n.limit = none) (hc : c ∈ closers)
    (hi : i.rest.length < b) :
    Completes 5 Detached (enclosed inner n c) (fun m => Reader.enclosed (inner' m) n c) i := by
  have hclosed : ∀ v, Closed (c :: v) := fun _ => .cons hc
  have hseconds : ∀ c ∈ closers, c ∉ seconds := forall_mem_of_all (by decide)
  have hsize : ∀ c ∈ closers, c.utf8Size = 1 := forall_mem_of_all (by decide)
  refine blanks_bind ((h.fresh n hn).bind (fresh_closer hc Prod.snd)) (by decide) fun l hl _ => ?_
  refine .bind (h.keeps (by omega)) (h.completes n l hn (by omega)) (fresh_closer hc id)
    (Nat.le_refl 5) fun e m _ hm _ => ?_
  refine blanks_bind (q := 1) ?_ (by decide) fun k hk _ => ?_
  · refine ⟨[c], byteLength_closer hc, fun rest _ => ⟨(hclosed rest).solid, .of_forall fun _ _ o => ?_⟩⟩
    exact EndsBefore.expect.bind fun _ o => .pure
  · exact (expect (fun _ h => h) (hseconds c hc) (by decide) (hsize c hc)).bind_still (fun _ _ => ⟨_, rfl⟩)
      fun _ _ _ => ⟨_, rfl⟩

/-- What comes behind an argument ends with the closer. -/
theorem fresh_behindArgument {ι : Type} (args : ι → Array Expr) {v : ι → Nat → Reader (List Expr)} :
    Fresh 1 Closed Detached fun b m => eat ')' >>= fun closed =>
      if closed = true then Pure.pure (args b).toList else v b m := by
  refine ⟨[')'], by decide, fun rest _ => ⟨.cons (by decide), .of_forall fun _ _ o => ?_⟩⟩
  exact .eat_bind fun o => .pure

theorem fresh_argumentRounds {ι : Type} (h : CompletesInner b inner inner') (hn : n.limit = none)
    {r : Nat → Nat} (hr : Tendsto r atTop atTop) (args : ι → Array Expr) :
    Fresh 2 Solid Detached fun b m =>
      Reader.repeatUpTo (r m) (args b) (argumentRound (inner' m) n) := by
  have hround : Fresh 2 Solid Detached fun b m =>
      Reader.repeatUpTo (r m - 1 + 1) (args b) (argumentRound (inner' m) n) := by
    simp only [repeatUpTo_argumentRound]
    refine Fresh.bind (k := 1) (h.fresh n hn).of_unit ?_
    exact .blanks_bind (fun _ h => h.solid) (fresh_behindArgument _)
  refine hround.congr ?_
  filter_upwards [hr.eventually_ge_atTop 1] with m hm
  exact fun b => by rw [Nat.sub_add_cancel hm]

/-- By induction on the bound: a call must have an argument behind each comma. -/
theorem argumentRounds (h : CompletesInner b inner inner') (hn : n.limit = none) {r : Nat → Nat}
    {rounds : Nat} {args args' : Array Expr} (hr : Tendsto r atTop atTop) (hi : i.rest.length < b)
    (hrounds : i.rest.length < rounds) :
    Completes 5 Detached (Reader.repeatUpTo rounds args (argumentRound inner n))
      (fun m => Reader.repeatUpTo (r m) args' (argumentRound (inner' m) n)) i := by
  refine repeatUpTo (fun rounds r args args' i hr hi ih => ?_) hr hi hrounds
  simp only [repeatUpTo_argumentRound]
  refine .bind (q := 1) (h.keeps hi) (h.completes n i hn hi) ?_ (by decide)
    fun arg l hrun _ _ => ?_
  · exact .blanks_bind (fun _ h => h.solid) (fresh_behindArgument _)
  have hlt := h.shortens hi hrun
  refine blanks_bind (.mono (fun _ h => h.solid) (fresh_behindArgument _)) (by decide)
    fun m hm _ => ?_
  refine .eat_bind (fun hnil => ?_) (fun _ _ => .pure fun _ h => h) fun _ _ => ?_
  · exact .of_fresh hnil (fun _ h => h.detached) (by decide)
      (fresh_behindArgument fun _ => args'.push _)
  refine .bind (K := Solid) (q := 2) (.const fun _ => .expect (by decide))
    (expect (m := 0) (fun _ h => h.2) (by decide) (by decide) rfl) ?_ (by decide)
    fun _ k _ hk _ => ?_
  · exact .blanks_bind (fun _ h => h) (fresh_argumentRounds h hn hr _)
  refine blanks_bind (fresh_argumentRounds h hn hr _) (by decide) fun k' hk' _ => ?_
  exact ih _ _ k' (by omega)

theorem arguments (h : CompletesInner b inner inner') (hn : n.limit = none)
    (hi : i.rest.length < b + 1) (hc : i.rest.head? = some '(') :
    Completes 3 Detached (arguments inner (b + 1) n)
      (fun m => Reader.arguments (inner' m) (m + 1) n) i := by
  have hempty : ∀ {v : Nat → Reader (List Expr)}, Fresh 1 Closed Detached fun (_ : Unit) m =>
      eat ')' >>= fun closed => if closed = true then Pure.pure [] else v m :=
    fresh_behindArgument fun _ => #[]
  refine .skip_bind hc fun l hl => ?_
  have hlt := hl.length_lt (by simp)
  refine blanks_bind (.mono (fun _ h => h.solid) hempty) (by decide) fun m hm _ => ?_
  refine .eat_bind (fun hnil => ?_) (fun _ _ => .pure fun _ h => h) fun _ _ => ?_
  · exact .of_fresh hnil (fun _ h => h.detached) (by decide) hempty
  · exact argumentRounds h hn (Filter.tendsto_add_atTop_nat 1) (by omega) (by omega)

/-! ### Names and what is attached to them -/

section Attached

open Carries (attached selected attached_of_dot attached_of_square)

variable {start start' : Nat} {id id' : Ident}

/-- By cases on what comes next, as where a name is read elsewhere. -/
theorem completes_attached (h : CompletesInner b inner inner') (hn : n.limit = none)
    (hi : i.rest.length < b + 1) (hne : i.rest ≠ []) :
    Completes 3 Detached (attached inner (b + 1) n start id)
      (fun m => attached (inner' m) (m + 1) n start' id') i := by
  have hhead := Input.head?_append hne
  have hselected : ∀ (selection : Selection) (j : Input), j.rest.length < b → Completes 5 Detached
      (selected inner n start selection id) (fun m => selected (inner' m) n start' selection id') j :=
    fun _ _ hj =>
      (enclosed h hn (by decide) hj).bind_still (fun _ _ => ⟨_, rfl⟩) fun _ _ _ => ⟨_, rfl⟩
  by_cases hsquare : i.rest.head? = some '['
  · have hsame : ∀ {more}, Detached more →
        ['[', '.'].isPrefixOf (i.append more).rest = ['[', '.'].isPrefixOf i.rest :=
      fun hmore => hmore.isPrefixOf_append hne (by decide)
    obtain ⟨l, hl⟩ := Input.exists_takes_head hsquare
    have hlt := hl.length_lt (by simp)
    by_cases hdot : ['[', '.'].isPrefixOf i.rest = true
    · obtain ⟨m, hm⟩ := isPrefixOf_eq_true_iff.mp hdot
      obtain ⟨l', hl', hm⟩ := Input.takes_cons.mp hm
      obtain rfl := hl.unique hl'
      have hlt' := hm.length_lt (by simp)
      refine (hselected .attribute m (by omega)).of_run (by omega) (fun hx => ?_)
        fun more rest hmore => .of_forall fun k hends => .of_eq ?_ hends
      · rwa [Exhausts, attached_of_dot hdot, Reader.skip_bind hl, Reader.skip_bind hm] at hx
      · rw [attached_of_dot ((hsame hmore).trans hdot), Reader.skip_bind (hl.append more),
          Reader.skip_bind (hm.append more)]
    · refine (hselected .member l (by omega)).of_run (by omega) (fun hx => ?_)
        fun more rest hmore => .of_forall fun k hends => .of_eq ?_ hends
      · rwa [Exhausts, attached_of_square hsquare hdot, Reader.skip_bind hl] at hx
      · rw [attached_of_square ((hhead more).trans hsquare) (by rwa [hsame hmore]),
          Reader.skip_bind (hl.append more)]
  · refine .looksAt_bind (fun more => ?_) ?_
    · rw [isPrefixOf_of_head?_ne hsquare, isPrefixOf_of_head?_ne ((hhead more).symm ▸ hsquare)]
    rw [isPrefixOf_of_head?_ne hsquare]
    refine .looksAt_bind (fun more => by rw [isPrefixOf_singleton, isPrefixOf_singleton, hhead]) ?_
    rw [isPrefixOf_singleton, beq_eq_false_iff_ne.mpr hsquare]
    refine .looksAt_bind (fun more => by rw [isPrefixOf_singleton, isPrefixOf_singleton, hhead]) ?_
    refine .ite (fun hp => ?_) fun _ => .pure fun _ h => h
    rw [isPrefixOf_singleton, beq_iff_eq] at hp
    exact (arguments h hn hi hp).bind_still (fun _ _ => ⟨_, rfl⟩) fun _ _ _ => ⟨_, rfl⟩

/-- Nothing has to be attached to a name. -/
theorem fresh_attached : Fresh 0 AfterToken Closed fun id m => attached (inner' m) (m + 1) n start id := by
  refine ⟨[], Nat.le_refl 0, fun rest hrest => ⟨hrest.afterToken, .of_forall fun m id o => ?_⟩⟩
  have hsquare : rest.head? ≠ some '[' := hrest.ne (by decide)
  have hround : rest.head? ≠ some '(' := hrest.ne (by decide)
  have hrun : attached (inner' m) (m + 1) n start id ⟨o, rest⟩ = .ok (.ident id) ⟨o, rest⟩ := by
    rw [attached, Reader.looksAt_bind, isPrefixOf_of_head?_ne hsquare, if_neg (by decide),
      Reader.looksAt_bind, isPrefixOf_singleton, if_neg (by simpa using hsquare),
      Reader.looksAt_bind, isPrefixOf_singleton, if_neg (by simpa using hround)]
    rfl
  exact .of_ok hrun

theorem named (h : CompletesInner b inner inner') (hn : n.limit = none)
    (hi : i.rest.length < b + 1) :
    Completes 3 Closed (named inner (b + 1) n) (fun m => Reader.named (inner' m) (m + 1) n) i := by
  refine .offset_bind ?_
  refine .bind (.const fun _ => .ident) ident fresh_attached (by decide) fun id l _ hl hne => ?_
  exact (completes_attached h hn (by omega) hne).mono fun _ h => h.detached

end Attached

/-! ### Operands -/

theorem reference {scope : Scope} (hc : i.rest.head? = some c) :
    Completes 3 Closed (reference scope) (fun _ => Reader.reference scope) i := by
  refine .offset_bind (.skip_bind hc fun l _ => ?_)
  exact ((ident.mono fun _ h => h.afterToken).le (by decide)).bind_still (fun _ _ => ⟨_, rfl⟩) fun _ _ _ => ⟨_, rfl⟩

/-- A digit is an operand. -/
theorem primary_digit {inner : Nesting → Reader Expr} {bound o : Nat} {rest : List Char}
    (hrest : Closed rest) : EndsBefore (Reader.primary inner bound n) ⟨o, '0' :: rest⟩ rest := by
  have ht : (⟨o, '0' :: rest⟩ : Input).Takes ['0'] ⟨o + byteLength ['0'], rest⟩ := ⟨rfl, rfl⟩
  have hdigits : IsInteger ['0'] := ⟨by simp, forall_mem_of_all (by decide), by decide⟩
  have hnext : NextNot Char.isDigit rest := hrest.afterToken.1 .digits
  exact .offset_bind (.peek?_bind
    (.of_ok ((integer_eq_ok rfl (by decide)).mpr ⟨_, ht, hdigits, hnext, rfl⟩)))

/-- A digit is an operand. -/
theorem fresh_primary : Fresh 1 Solid Closed fun (_ : Unit) m => Reader.primary (inner' m) (m + 1) n :=
  ⟨['0'], by decide, fun _ hrest =>
    ⟨.cons (by decide) (by decide), .of_forall fun _ _ _ => primary_digit hrest⟩⟩

theorem primary (h : CompletesInner b inner inner') (hn : n.limit = none)
    (hi : i.rest.length < b + 1) :
    Completes 3 Closed (primary inner (b + 1) n) (fun m => Reader.primary (inner' m) (m + 1) n) i := by
  by_cases hnil : i.rest = []
  · exact fun _ => .of_fresh hnil (fun _ h => h.2) (by decide) fresh_primary
  refine .offset_bind (.peek?_bind (fun h => absurd h hnil) fun c hc => ?_)
  refine .ite (fun _ => ?_) fun _ => ?_
  · refine .skip_bind hc fun l hl => ?_
    have hlt := hl.length_lt (by simp)
    exact ((enclosed h hn (by decide) (by omega)).bind_still (fun _ _ => ⟨_, rfl⟩)
      fun _ _ _ => ⟨_, rfl⟩).mono fun _ h => h.detached
  refine .ite (fun hd => (integer hc hd).mono fun _ h => h.afterToken) fun _ => ?_
  refine .ite (fun _ => ?_) fun _ => ?_
  · exact ((value h hn hi).bind_still (fun _ _ => ⟨_, rfl⟩) fun _ _ _ => ⟨_, rfl⟩).mono
      fun _ h => h.detached
  refine .ite (fun _ => named h hn hi) fun _ => ?_
  refine .ite (fun _ => reference hc) fun _ => ?_
  refine .ite (fun _ => reference hc) fun _ => ?_
  refine .ite (fun _ => ?_) fun _ => .unexpected hnil (by decide)
  exact .skip_bind hc fun l _ => .spanFrom_bind (.pure fun _ h => h.detached)

end Completes

end Reader

end LocaleText
